import BraceLisp.SyntaxError
import BraceLisp.Term

/-!
# The forms of the language

A group is a form by its first member:

* `{if test then else}`
* `{lam {param ...} body}`
* `{var {name = value} ... body}`
* `{callee arg ...}`

`Form.ofItems` recognises the shape of one group and looks into no other; names and the terms inside
are checked where they are parsed.
-/

namespace BraceLisp

/-- The words that head a special form. -/
inductive Keyword where
  | cond
  | lam
  | var
deriving DecidableEq, Repr

namespace Keyword

/-- The spelling of a keyword. -/
def name : Keyword → String
  | cond => "if"
  | lam => "lam"
  | var => "var"

/-- The keyword that a term spells, if it is the symbol of one. -/
def ofTerm? : Term → Option Keyword
  | .atom (.symbol s) =>
    if s = cond.name then some cond
    else if s = lam.name then some lam
    else if s = var.name then some var
    else none
  | _ => none

end Keyword

/-- The symbol between name and value of a `var` clause. -/
def bindingMark : String := "="

/-- The words that name nothing. -/
def reservedWords : List String :=
  [Keyword.var.name, Keyword.cond.name, Keyword.lam.name, bindingMark]

/-- A word that names nothing. -/
def Reserved (name : String) : Prop := name ∈ reservedWords

instance (name : String) : Decidable (Reserved name) :=
  inferInstanceAs (Decidable (name ∈ reservedWords))

/-- A clause `{name = value}` of a `var` form. -/
structure Clause where
  name : Term
  value : Term
deriving Repr

namespace Clause

/-- The clause that a term is, if it has the shape of one. -/
def ofTerm? : Term → Option Clause
  | .list [name, .atom (.symbol mark), value] =>
    if mark = bindingMark then some ⟨name, value⟩ else none
  | _ => none

/-- Splits terms into the clauses and the body that ends them. -/
def splitBody? : List Term → Option (List Clause × Term)
  | [] => none
  | [body] => some ([], body)
  | t :: rest =>
    match ofTerm? t, splitBody? rest with
    | some c, some (clauses, body) => some (c :: clauses, body)
    | _, _ => none

end Clause

/-- A group whose shape is recognised. -/
inductive Form where
  | cond (test thenBranch elseBranch : Term)
  | lam (params : List Term) (body : Term)
  /-- At least one clause. -/
  | var (clauses : List Clause) (body : Term)
  | app (callee : Term) (args : List Term)
deriving Repr

namespace Form

/-- The form that the members of a group make. -/
def ofItems : List Term → Except SyntaxError Form
  | [] => .error .emptyApplication
  | head :: rest =>
    match Keyword.ofTerm? head with
    | some .cond =>
      match rest with
      | [test, thenBranch, elseBranch] => .ok (.cond test thenBranch elseBranch)
      | _ => .error .malformedIf
    | some .lam =>
      match rest with
      | [.list params, body] => .ok (.lam params body)
      | _ => .error .malformedLam
    | some .var =>
      match Clause.splitBody? rest with
      | some (c :: clauses, body) => .ok (.var (c :: clauses) body)
      | _ => .error .malformedVar
    | none => .ok (.app head rest)

end Form

/-! ## The terms of a form are parts of the group -/

theorem Clause.sizeOf_lt_of_ofTerm? {t : Term} {c : Clause} (h : ofTerm? t = some c) :
    sizeOf c.value < sizeOf t := by
  unfold ofTerm? at h
  split at h
  · split at h
    · cases h
      simp only [Term.list.sizeOf_spec, List.cons.sizeOf_spec]
      omega
    · cases h
  · cases h

theorem Clause.sizeOf_lt_of_splitBody? {items : List Term} {clauses : List Clause} {body : Term}
    (h : splitBody? items = some (clauses, body)) :
    sizeOf (clauses.map Clause.value) < sizeOf items ∧ sizeOf body < sizeOf items := by
  fun_induction splitBody? items generalizing clauses body with
  | case1 => cases h
  | case2 body =>
    cases h
    have : 0 < sizeOf body := by cases body <;> simp only [Term.atom.sizeOf_spec,
      Term.list.sizeOf_spec] <;> omega
    simp only [List.map_nil, List.nil.sizeOf_spec, List.cons.sizeOf_spec]
    omega
  | case3 t rest _ c cs b hs hc ih =>
    cases h
    have := sizeOf_lt_of_ofTerm? hc
    have := ih hs
    simp only [List.map_cons, List.cons.sizeOf_spec]
    omega
  | case4 => cases h

theorem Form.sizeOf_cond_lt {items : List Term} {test thenBranch elseBranch : Term}
    (h : ofItems items = .ok (.cond test thenBranch elseBranch)) :
    sizeOf test < sizeOf items ∧ sizeOf thenBranch < sizeOf items ∧
      sizeOf elseBranch < sizeOf items := by
  unfold ofItems at h
  split at h
  · cases h
  · split at h <;> (try split at h) <;> cases h
    simp only [List.cons.sizeOf_spec]
    omega

theorem Form.sizeOf_lam_lt {items params : List Term} {body : Term}
    (h : ofItems items = .ok (.lam params body)) : sizeOf body < sizeOf items := by
  unfold ofItems at h
  split at h
  · cases h
  · split at h <;> (try split at h) <;> cases h
    simp only [List.cons.sizeOf_spec]
    omega

theorem Form.sizeOf_var_lt {items : List Term} {clauses : List Clause} {body : Term}
    (h : ofItems items = .ok (.var clauses body)) :
    sizeOf (clauses.map Clause.value) < sizeOf items ∧ sizeOf body < sizeOf items := by
  unfold ofItems at h
  split at h
  · cases h
  · split at h <;> (try split at h) <;> cases h
    next hs =>
      have := Clause.sizeOf_lt_of_splitBody? hs
      simp only [List.cons.sizeOf_spec] at *
      omega

theorem Form.sizeOf_app_lt {items args : List Term} {callee : Term}
    (h : ofItems items = .ok (.app callee args)) :
    sizeOf callee < sizeOf items ∧ sizeOf args < sizeOf items := by
  unfold ofItems at h
  split at h
  · cases h
  · split at h <;> (try split at h) <;> cases h
    simp only [List.cons.sizeOf_spec]
    omega

end BraceLisp
