import BraceLisp.Proofs.Forms

/-!
# The grammar of expressions

`Term.IsExpr` says which terms are expressions, rule by rule and without a
parser. The parser accepts these terms and no others
(`Term.parses_iff_isExpr`).

Both directions go form by form: a term is an expression if its parameters are
in order and its parts are expressions, and this is also where parsing a form
succeeds (`Expr.ofForm_isOk_iff`).
-/

namespace BraceLisp.Term

/-! ## The rules -/

/-- A symbol that can name something. -/
def IsName (s : String) : Prop := s ∉ ["var", "if", "lam", "="]

/-- Parameters: names, pairwise distinct. -/
structure AreParams (names : List String) : Prop where
  nodup : names.Nodup
  isName : ∀ s ∈ names, IsName s

/-- A term that is an expression. -/
inductive IsExpr : Term → Prop where
  | number (x : Float) : IsExpr (.atom (.number x))
  | string (s : String) : IsExpr (.atom (.string s))
  | ident {s : String} (hs : IsName s) : IsExpr (.symbol s)
  | cond {test thenBranch elseBranch : Term} (ht : IsExpr test)
      (ha : IsExpr thenBranch) (hb : IsExpr elseBranch) :
      IsExpr (.list [.symbol "if", test, thenBranch, elseBranch])
  | lam {params : List String} {body : Term} (hparams : AreParams params)
      (hbody : IsExpr body) :
      IsExpr (.list [.symbol "lam", .list (params.map .symbol), body])
  | var {clauses : List (String × Term)} {body : Term} (hne : clauses ≠ [])
      (hparams : AreParams (clauses.map Prod.fst))
      (hvalues : ∀ c ∈ clauses, IsExpr c.2) (hbody : IsExpr body) :
      IsExpr (.list (.symbol "var" ::
        (clauses.map (fun c => .list [.symbol c.1, .symbol "=", c.2]) ++
          [body])))
  | app {callee : Term} {args : List Term}
      (hhead : ∀ s ∈ ["if", "lam", "var"], callee ≠ .symbol s)
      (hcallee : IsExpr callee) (hargs : ∀ a ∈ args, IsExpr a) :
      IsExpr (.list (callee :: args))

/-! ## Rules and forms -/

theorem areParams_iff {names : List String} :
    AreParams names ↔ names.Nodup ∧ ∀ s ∈ names, ¬Reserved s :=
  ⟨fun h => ⟨h.nodup, h.isName⟩, fun h => ⟨h.1, h.2⟩⟩

theorem ofTerm?_eq_none_iff {t : Term} :
    Keyword.ofTerm? t = none ↔ ∀ s ∈ ["if", "lam", "var"], t ≠ .symbol s := by
  constructor
  · rintro h s hs rfl
    simp only [List.mem_cons, List.not_mem_nil, or_false] at hs
    rcases hs with rfl | rfl | rfl <;> cases h
  · intro h
    cases hk : Keyword.ofTerm? t with
    | none => rfl
    | some k =>
        obtain rfl := Keyword.ofTerm?_eq_some_iff.mp hk
        refine absurd rfl (h k.name ?_)
        cases k <;> decide

/-- A clause with a symbol for its name. -/
def clauseOf (c : String × Term) : Clause := ⟨.symbol c.1, c.2⟩

theorem exists_map_clauseOf {clauses : List Clause} {names : List String}
    (h : clauses.map Clause.name = names.map .symbol) :
    ∃ cs : List (String × Term),
      clauses = cs.map clauseOf ∧ names = cs.map Prod.fst := by
  induction clauses generalizing names with
  | nil =>
      obtain rfl := List.map_eq_nil_iff.mp h.symm
      exact ⟨[], rfl, rfl⟩
  | cons c clauses ih =>
      obtain ⟨s, names, rfl, hs, hnames⟩ := List.map_eq_cons_iff.mp h.symm
      obtain ⟨cs, rfl, rfl⟩ := ih hnames.symm
      obtain ⟨name, value⟩ := c
      obtain rfl : name = .symbol s := hs.symm
      exact ⟨(s, value) :: cs, rfl, rfl⟩

/-- A form in order is written as an expression. -/
theorem isExpr_items {form : Form} (hshaped : form.Shaped)
    {names : List String} (hparams : form.params = names.map .symbol)
    (hnames : AreParams names) (hparts : ∀ t ∈ form.parts, t.IsExpr) :
    (list form.items).IsExpr := by
  cases form with
  | cond test thenBranch elseBranch =>
      simp only [Form.parts, List.forall_mem_cons] at hparts
      exact .cond hparts.1 hparts.2.1 hparts.2.2.1
  | lam params body =>
      obtain rfl : params = names.map .symbol := hparams
      simp only [Form.parts, List.forall_mem_cons] at hparts
      exact .lam hnames hparts.1
  | var clauses body =>
      obtain ⟨cs, rfl, rfl⟩ := exists_map_clauseOf hparams
      simp only [Form.parts, List.forall_mem_cons] at hparts
      obtain ⟨hbody, hvalues⟩ := hparts
      have hne : cs ≠ [] := fun h => hshaped (List.map_eq_nil_iff.mpr h)
      rw [Form.items, List.map_map]
      refine .var hne hnames (fun c hc => ?_) hbody
      exact hvalues c.2 (List.mem_map.mpr
        ⟨clauseOf c, List.mem_map.mpr ⟨c, hc, rfl⟩, rfl⟩)
  | app callee args =>
      simp only [Form.parts, List.forall_mem_cons] at hparts
      exact .app (ofTerm?_eq_none_iff.mp hshaped) hparts.1 hparts.2

/-! ## The parser -/

theorem items_isOk_iff {form : Form} (hshaped : form.Shaped) :
    (∃ e, Expr.ofTerm (list form.items) = .ok e) ↔
      (∃ names, form.params = names.map .symbol ∧ AreParams names) ∧
        ∀ t ∈ form.parts, ∃ e, Expr.ofTerm t = .ok e := by
  simp only [Expr.ofTerm_items hshaped, Expr.ofForm_isOk_iff,
    Expr.paramsOf_eq_ok_iff, areParams_iff]

theorem isExpr_of_ofTerm {t : Term} {e : Expr String}
    (h : Expr.ofTerm t = .ok e) : t.IsExpr := by
  induction t using form_induction generalizing e with
  | atom a =>
      cases a with
      | number x => exact .number x
      | string s => exact .string s
      | symbol s =>
          rw [Expr.ofTerm_symbol] at h
          split at h
          · cases h
          · next hs => exact .ident hs
  | malformed items e' herror =>
      rw [Expr.ofTerm_list, herror] at h
      cases h
  | form items form hform ih =>
      obtain ⟨rfl, hshaped⟩ := Form.ofItems_eq_ok_iff.mp hform
      obtain ⟨⟨names, hparams, hnames⟩, hparts⟩ :=
        (items_isOk_iff hshaped).mp ⟨e, h⟩
      refine isExpr_items hshaped hparams hnames fun t ht => ?_
      obtain ⟨e, he⟩ := hparts t ht
      exact ih t ht he

theorem ofTerm_of_isExpr {t : Term} (h : t.IsExpr) :
    ∃ e, Expr.ofTerm t = .ok e := by
  have hnone : AreParams [] := ⟨.nil, List.forall_mem_nil _⟩
  induction h with
  | number x => exact ⟨.number x, Expr.ofTerm_number x⟩
  | string s => exact ⟨.string s, Expr.ofTerm_string s⟩
  | ident hs => exact ⟨.ident _, (Expr.ofTerm_symbol _).trans (if_neg hs)⟩
  | @cond test thenBranch elseBranch ht ha hb iht iha ihb =>
      have hshaped : (Form.cond test thenBranch elseBranch).Shaped := trivial
      refine (items_isOk_iff hshaped).mpr ⟨⟨[], rfl, hnone⟩, ?_⟩
      simp only [Form.parts, List.forall_mem_cons]
      exact ⟨iht, iha, ihb, List.forall_mem_nil _⟩
  | @lam params body hparams hbody ih =>
      have hshaped : (Form.lam (params.map .symbol) body).Shaped := trivial
      refine (items_isOk_iff hshaped).mpr ⟨⟨params, rfl, hparams⟩, ?_⟩
      simp only [Form.parts, List.forall_mem_cons]
      exact ⟨ih, List.forall_mem_nil _⟩
  | @var clauses body hne hparams hvalues hbody ihvalues ihbody =>
      have hshaped : (Form.var (clauses.map clauseOf) body).Shaped :=
        fun h => hne (List.map_eq_nil_iff.mp h)
      have h := (items_isOk_iff hshaped).mpr
      rw [Form.items, Form.params, Form.parts, List.map_map, List.map_map,
        List.map_map, List.forall_mem_cons, List.forall_mem_map] at h
      refine h ⟨⟨clauses.map Prod.fst, ?_, hparams⟩, ihbody, ihvalues⟩
      rw [List.map_map]
      rfl
  | @app callee args hhead hcallee hargs ihcallee ihargs =>
      have hshaped : (Form.app callee args).Shaped :=
        ofTerm?_eq_none_iff.mpr hhead
      refine (items_isOk_iff hshaped).mpr ⟨⟨[], rfl, hnone⟩, ?_⟩
      simp only [Form.parts, List.forall_mem_cons]
      exact ⟨ihcallee, ihargs⟩

/-- The parser accepts the terms that the grammar derives. On every other term
it ends in a syntax error. -/
theorem parses_iff_isExpr (t : Term) :
    ((∃ e, Expr.ofTerm t = .ok e) ↔ t.IsExpr) ∧
      ((∃ err : SyntaxError, Expr.ofTerm t = .error err) ↔ ¬t.IsExpr) := by
  have haccepts : (∃ e, Expr.ofTerm t = .ok e) ↔ t.IsExpr := by
    constructor
    · rintro ⟨e, h⟩
      exact isExpr_of_ofTerm h
    · exact ofTerm_of_isExpr
  refine ⟨haccepts, ?_⟩
  rw [← haccepts]
  cases Expr.ofTerm t with
  | ok e => exact ⟨nofun, fun h => absurd ⟨e, rfl⟩ h⟩
  | error err => exact ⟨fun _ => nofun, fun _ => ⟨err, rfl⟩⟩

end BraceLisp.Term
