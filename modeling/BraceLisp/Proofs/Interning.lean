import BraceLisp.Proofs.Forms
import BraceLisp.Proofs.Naming
import BraceLisp.SymbolTable
import Mathlib.Data.List.Forall2

/-!
# Interning does not show

A host may intern names: it keeps a table for as long as it runs, gets a symbol
for each spelling from it, and works with symbols. `Interner` is what it relies
on: a spelling that the table has keeps its symbol, and a spelling that it does
not have is added under a symbol that is new. `SymbolTable` is such an interner.

Symbols are arbitrary, and depend on all that was interned before, but in every
table a symbol and its spelling are related one to one, and a table that is
`Later` has all that was there before. So parsing with symbols ends as parsing
with spellings does, with the same fault or with a counterpart of the same
expression (`Interner.follows_ofTerm`), and evaluation only compares names.
-/

namespace BraceLisp

open Relator

/-- A table of type `σ` that gives out symbols of type `S` for spellings. -/
structure Interner (σ S : Type) [DecidableEq S] where
  /-- The symbol of a spelling, and the table that has it. -/
  intern : σ → String → S × σ
  /-- The spelling of a symbol, if the table has the symbol. -/
  resolve? : σ → S → Option String
  /-- A spelling that is there keeps its symbol and changes nothing. -/
  intern_known {t : σ} {s : S} {name : String} :
    resolve? t s = some name → intern t name = (s, t)
  /-- Any other spelling is added under a symbol that was not there. -/
  intern_new {t : σ} {name : String} : (∀ s, resolve? t s ≠ some name) →
    resolve? t (intern t name).1 = none ∧
      ∀ s, resolve? (intern t name).2 s =
        if s = (intern t name).1 then some name else resolve? t s

/-- Tables of spellings, each at the place that is its symbol. -/
def SymbolTable.interner : Interner SymbolTable Symbol where
  intern := intern
  resolve? := resolve?
  intern_known {t s name} h := by
    obtain ⟨i⟩ := s
    replace h : t.spellings[i]? = some name := h
    obtain ⟨hi, rfl⟩ := List.getElem?_eq_some_iff.mp h
    rw [intern, dif_pos (List.getElem_mem hi), t.nodup.idxOf_getElem i hi]
  intern_new {t name} h := by
    have hname : name ∉ t.spellings := by
      intro hmem
      obtain ⟨i, hi⟩ := List.mem_iff_getElem?.mp hmem
      exact h ⟨i⟩ hi
    rw [intern, dif_neg hname]
    refine ⟨List.getElem?_eq_none (Nat.le_refl _), fun s => ?_⟩
    obtain ⟨i⟩ := s
    show (t.spellings ++ [name])[i]? = _
    by_cases hi : i = t.spellings.length
    · rw [hi, if_pos rfl, List.getElem?_concat_length]
    · rw [if_neg fun h => hi (Symbol.mk.inj h), List.getElem?_append]
      split
      · rfl
      · next hlt =>
          rw [List.getElem?_eq_none (by rw [List.length_singleton]; omega)]
          exact (List.getElem?_eq_none (Nat.le_of_not_lt hlt)).symm

namespace Expr

section Generic

variable {ν : Type} [DecidableEq ν] {m : Type → Type} [Monad m]
  [MonadExceptOf SyntaxError m] (intern : String → m ν)

/-- The expression that a form is, with names that `intern` gives. -/
def ofFormWith : Form → m (Expr ν)
  | .cond test thenBranch elseBranch =>
    return .cond (← ofTermWith intern test) (← ofTermWith intern thenBranch)
      (← ofTermWith intern elseBranch)
  | .lam params body =>
    return .lam (← parameters intern params) (← ofTermWith intern body)
  | .var clauses body => do
    let params ← parameters intern (clauses.map Clause.name)
    let body ← ofTermWith intern body
    return .app (.lam params body)
      (← ofTermsWith intern (clauses.map Clause.value))
  | .app callee args =>
    return .app (← ofTermWith intern callee) (← ofTermsWith intern args)

theorem ofTermWith_malformed {items : List Term} {e : SyntaxError}
    (h : Form.ofItems items = .error e) :
    ofTermWith intern (.list items) = throw e := by
  rw [ofTermWith]
  split
  all_goals
    next h' => cases h.symm.trans h' <;> rfl

theorem ofTermWith_form {items : List Term} {form : Form}
    (h : Form.ofItems items = .ok form) :
    ofTermWith intern (.list items) = ofFormWith intern form := by
  rw [ofTermWith]
  split
  all_goals
    next h' => cases h.symm.trans h' <;> rfl

end Generic

end Expr

namespace Interner

variable {σ S : Type} [DecidableEq S] (I : Interner σ S)

/-! ## Tables grow -/

/-- The second table is the first after some more spellings were interned. -/
inductive Later : σ → σ → Prop where
  | refl (t : σ) : Later t t
  | intern {t t' : σ} (h : Later t t') (name : String) :
      Later t (I.intern t' name).2

/-- The symbol has the spelling in the table. -/
def Names (t : σ) (s : S) (name : String) : Prop := I.resolve? t s = some name

variable {I}

theorem Later.trans {t₁ t₂ t₃ : σ} (h : I.Later t₁ t₂) (h' : I.Later t₂ t₃) :
    I.Later t₁ t₃ := by
  induction h' with
  | refl => exact h
  | intern _ name ih => exact .intern ih name

theorem names_intern_of_names {t : σ} {s : S} {a : String} (h : I.Names t s a)
    (name : String) : I.Names (I.intern t name).2 s a := by
  by_cases hknown : ∃ s', I.resolve? t s' = some name
  · obtain ⟨s', hs'⟩ := hknown
    rw [I.intern_known hs']
    exact h
  · obtain ⟨hnew, hresolve⟩ := I.intern_new (not_exists.mp hknown)
    rw [Names, hresolve, if_neg]
    · exact h
    · rintro rfl
      rw [Names, hnew] at h
      cases h

theorem names_intern (t : σ) (name : String) :
    I.Names (I.intern t name).2 (I.intern t name).1 name := by
  by_cases hknown : ∃ s, I.resolve? t s = some name
  · obtain ⟨s, hs⟩ := hknown
    rw [I.intern_known hs]
    exact hs
  · obtain ⟨-, hresolve⟩ := I.intern_new (not_exists.mp hknown)
    rw [Names, hresolve, if_pos rfl]

/-- A symbol keeps its spelling for good. -/
theorem Later.names {t t' : σ} (h : I.Later t t') {s : S} {name : String}
    (hs : I.Names t s name) : I.Names t' s name := by
  induction h with
  | refl => exact hs
  | intern _ name' ih => exact names_intern_of_names ih name'

/-- Equal symbols have equal spellings, and equal spellings equal symbols. -/
theorem biUnique_names (t : σ) : BiUnique (I.Names t) := by
  constructor
  · intro s s' name hs hs'
    have h := I.intern_known hs
    rw [I.intern_known hs'] at h
    exact (Prod.mk.inj h).1.symm
  · intro s name name' hname hname'
    rw [Names, hname] at hname'
    exact Option.some.inj hname'

theorem intern_eq_iff {t t' : σ} {a b : String}
    (h : I.Later (I.intern t a).2 t') :
    (I.intern t' b).1 = (I.intern t a).1 ↔ b = a := by
  have ha : I.Names (I.intern t' b).2 (I.intern t a).1 a :=
    names_intern_of_names (h.names (names_intern t a)) b
  exact rel_eq (biUnique_names _) (names_intern t' b) ha

/-! ## Parsing -/

/-- A computation that interns names and may find a fault. What it interned
before the fault stays in the table. -/
abbrev Parser (σ : Type) := ExceptT SyntaxError (StateM σ)

/-- From the table `t` the two computations end alike: with the same fault, or
with values that are related by the table that is left, which is a later one. -/
def Follows (I : Interner σ S) {α β : Type} (t : σ) (R : σ → α → β → Prop)
    (x : Parser σ α) (y : Except SyntaxError β) : Prop :=
  ∃ r t', x.run t = (r, t') ∧ I.Later t t' ∧ AnswersAlike Eq (R t') r y

namespace Follows

variable {α β α' β' : Type} {R : σ → α → β → Prop} {Q : σ → α' → β' → Prop}

theorem pure {t : σ} {a : α} {b : β} (h : R t a b) :
    I.Follows t R (Pure.pure a) (Pure.pure b) :=
  ⟨.ok a, t, rfl, .refl t, .ok h⟩

theorem throw (t : σ) (e : SyntaxError) :
    I.Follows t R (MonadExcept.throw e) (.error e) :=
  ⟨.error e, t, rfl, .refl t, .error rfl⟩

theorem bind {t : σ} {x : Parser σ α} {y : Except SyntaxError β}
    {f : α → Parser σ α'} {g : β → Except SyntaxError β'}
    (h : I.Follows t R x y)
    (hfg : ∀ t' a b, I.Later t t' → R t' a b → I.Follows t' Q (f a) (g b)) :
    I.Follows t Q (x >>= f) (y >>= g) := by
  obtain ⟨r, t', hx, hlater, hr⟩ := h
  have hrun : (x >>= f).run t = (ExceptT.bindCont f r).run t' := by
    show (ExceptT.bindCont f (x.run t).1).run (x.run t).2 = _
    rw [hx]
  cases hr with
  | error h => exact ⟨_, t', hrun, hlater, .error h⟩
  | ok h =>
      obtain ⟨r, t'', hf, hlater', hr⟩ := hfg t' _ _ hlater h
      exact ⟨r, t'', hrun.trans hf, hlater.trans hlater', hr⟩

end Follows

/-- Gets the symbol of a spelling. -/
def symbol (I : Interner σ S) (name : String) : Parser σ S :=
  ExceptT.lift fun t => I.intern t name

theorem follows_symbol (t : σ) (name : String) :
    I.Follows t I.Names (I.symbol name) (.ok name) :=
  ⟨.ok (I.intern t name).1, _, rfl, .intern (.refl t) name,
    .ok (names_intern t name)⟩

theorem follows_identifier (t : σ) (name : String) :
    I.Follows t I.Names (Expr.identifier I.symbol name)
      (Expr.identifier (m := Except SyntaxError) Pure.pure name) := by
  unfold Expr.identifier
  split
  · exact .throw t _
  · exact follows_symbol t name

theorem follows_parametersFrom {t : σ} {seen : List S} {seen' : List String}
    (hseen : List.Forall₂ (I.Names t) seen seen') (terms : List Term) :
    I.Follows t (fun t => List.Forall₂ (I.Names t))
      (Expr.parametersFrom I.symbol seen terms)
      (Expr.paramsFrom seen' terms) := by
  unfold Expr.paramsFrom
  induction terms generalizing t seen seen' with
  | nil => exact .pure .nil
  | cons term terms ih =>
      by_cases hsymbol : ∃ s, term = .symbol s
      · obtain ⟨name, rfl⟩ := hsymbol
        rw [Expr.parametersFrom, Expr.parametersFrom]
        refine .bind (follows_identifier t name) fun t' s name' hlater hs => ?_
        have hseen' := hseen.imp fun _ _ h => hlater.names h
        -- In the table that is left all these names are related, so both
        -- checks for a parameter that was seen before come out alike.
        have hmem : s ∈ seen ↔ name' ∈ seen' :=
          List.rel_mem (biUnique_names t') hs hseen'
        by_cases hs' : s ∈ seen
        · rw [if_pos hs', if_pos (hmem.mp hs')]
          exact .throw t' _
        · rw [if_neg hs', if_neg (mt hmem.mpr hs')]
          refine .bind (ih (.cons hs hseen')) fun t'' _ _ hlater' hnames => ?_
          exact .pure (.cons (hlater'.names hs) hnames)
      · rw [not_exists] at hsymbol
        rw [Expr.parametersFrom, Expr.parametersFrom]
        · exact .throw t _
        · exact hsymbol
        · exact hsymbol

/-- Parsing with symbols ends as parsing with spellings does. -/
abbrev FollowsTerm (I : Interner σ S) (t : σ) (term : Term) : Prop :=
  I.Follows t (fun t => Expr.Counterpart (I.Names t))
    (Expr.ofTermWith I.symbol term) (Expr.ofTerm term)

/-- A counterpart stays one in a later table. -/
theorem Later.counterpart {t t' : σ} (h : I.Later t t') {e : Expr S}
    {e' : Expr String} (he : e.Counterpart (I.Names t) e') :
    e.Counterpart (I.Names t') e' :=
  he.mono fun _ _ => h.names

theorem follows_ofTerms {terms : List Term}
    (h : ∀ term ∈ terms, ∀ t, I.FollowsTerm t term) (t : σ) :
    I.Follows t (fun t => List.Forall₂ (Expr.Counterpart (I.Names t)))
      (Expr.ofTermsWith I.symbol terms) (Expr.ofTerms terms) := by
  induction terms generalizing t with
  | nil =>
      rw [Expr.ofTerms_nil, Expr.ofTermsWith]
      exact .pure .nil
  | cons term terms ih =>
      rw [List.forall_mem_cons] at h
      rw [Expr.ofTerms_cons, Expr.ofTermsWith]
      refine .bind (h.1 t) fun t₁ e e' _ he => ?_
      refine .bind (ih h.2 t₁) fun t₂ es es' h₁₂ hes => ?_
      exact .pure (.cons (h₁₂.counterpart he) hes)

theorem follows_ofForm {form : Form}
    (h : ∀ term ∈ form.parts, ∀ t, I.FollowsTerm t term) (t : σ) :
    I.Follows t (fun t => Expr.Counterpart (I.Names t))
      (Expr.ofFormWith I.symbol form) (Expr.ofForm form) := by
  cases form with
  | cond test thenBranch elseBranch =>
      simp only [Form.parts, List.forall_mem_cons] at h
      rw [Expr.ofFormWith, Expr.ofForm]
      refine .bind (h.1 t) fun t₁ _ _ _ htest => ?_
      refine .bind (h.2.1 t₁) fun t₂ _ _ h₁₂ hthen => ?_
      refine .bind (h.2.2.1 t₂) fun t₃ _ _ h₂₃ helse => ?_
      exact .pure (.cond ((h₁₂.trans h₂₃).counterpart htest)
        (h₂₃.counterpart hthen) helse)
  | lam params body =>
      simp only [Form.parts, List.forall_mem_cons] at h
      rw [Expr.ofFormWith, Expr.ofForm]
      refine .bind (follows_parametersFrom .nil params)
        fun t₁ _ _ _ hparams => ?_
      refine .bind (h.1 t₁) fun t₂ _ _ h₁₂ hbody => ?_
      exact .pure (.lam (hparams.imp fun _ _ => h₁₂.names) hbody)
  | var clauses body =>
      simp only [Form.parts, List.forall_mem_cons] at h
      rw [Expr.ofFormWith, Expr.ofForm]
      refine .bind (follows_parametersFrom .nil _) fun t₁ _ _ _ hparams => ?_
      refine .bind (h.1 t₁) fun t₂ _ _ h₁₂ hbody => ?_
      refine .bind (follows_ofTerms h.2 t₂) fun t₃ _ _ h₂₃ hvalues => ?_
      have hlam := (hparams.imp fun _ _ => h₁₂.names)
      exact .pure (.app (h₂₃.counterpart (.lam hlam hbody)) hvalues)
  | app callee args =>
      simp only [Form.parts, List.forall_mem_cons] at h
      rw [Expr.ofFormWith, Expr.ofForm]
      refine .bind (h.1 t) fun t₁ _ _ _ hcallee => ?_
      refine .bind (follows_ofTerms h.2 t₁) fun t₂ _ _ h₁₂ hargs => ?_
      exact .pure (.app (h₁₂.counterpart hcallee) hargs)

theorem follows_ofTerm (t : σ) (term : Term) : I.FollowsTerm t term := by
  induction term using Term.form_induction generalizing t with
  | atom a =>
      cases a with
      | number x =>
          rw [FollowsTerm, Expr.ofTerm_number, Expr.ofTermWith]
          exact .pure (.number x)
      | string s =>
          rw [FollowsTerm, Expr.ofTerm_string, Expr.ofTermWith]
          exact .pure (.string s)
      | symbol name =>
          rw [FollowsTerm, Expr.ofTerm, Expr.ofTermWith, Expr.ofTermWith]
          refine .bind (follows_identifier t name) fun t₁ s _ _ hs => ?_
          exact .pure (.ident hs)
  | malformed items e h =>
      rw [FollowsTerm, Expr.ofTerm_list, Expr.ofTermWith_malformed _ h, h]
      exact .throw t e
  | form items form hform ih =>
      rw [FollowsTerm, Expr.ofTerm_list, Expr.ofTermWith_form _ hform, hform]
      exact follows_ofForm ih t

/-! ## Programs -/

/-- Parses a source that holds one expression. -/
def ofSource (I : Interner σ S) (source : String) : Parser σ (Expr S) :=
  match Term.ofSource source with
  | .error e => throw e
  | .ok term => Expr.ofTermWith I.symbol term

theorem follows_ofSource (t : σ) (source : String) :
    I.Follows t (fun t => Expr.Counterpart (I.Names t))
      (I.ofSource source) (Expr.ofSource source) := by
  rw [ofSource, Expr.ofSource]
  cases Term.ofSource source with
  | error e => exact .throw t e
  | ok term => exact follows_ofTerm t term

/-- Makes bindings one after another, each with the symbol of its name. -/
def bindAll (I : Interner σ S) :
    List (String × Value S) → Env S → σ → Env S × σ
  | [], env, t => (env, t)
  | (name, v) :: bindings, env, t =>
    let (s, t) := I.intern t name
    I.bindAll bindings (env.bind s v) t

/-- The top-level environment, with symbols for its names. -/
def top (I : Interner σ S) (t : σ) : Env S × σ :=
  I.bindAll topBindings .empty t

theorem bindAll_counterpart {bindings : List (String × Value S)}
    {bindings' : List (String × Value String)}
    (h : List.Forall₂ (fun b b' => b.1 = b'.1 ∧
      ∀ N, b.2.Counterpart N b'.2) bindings bindings')
    {t : σ} {env : Env S} {env' : Env String}
    (henv : env.Counterpart (I.Names t) env') :
    I.Later t (I.bindAll bindings env t).2 ∧
      (I.bindAll bindings env t).1.Counterpart
        (I.Names (I.bindAll bindings env t).2)
        (bindings'.foldl (fun env b => env.bind b.1 b.2) env') := by
  induction h generalizing t env env' with
  | nil => exact ⟨.refl t, henv⟩
  | @cons b b' bindings bindings' hb _ ih =>
      obtain ⟨name, v⟩ := b
      obtain ⟨name', v'⟩ := b'
      obtain ⟨rfl, hv⟩ := hb
      have hlater : I.Later t (I.intern t name).2 := .intern (.refl t) name
      have henv' := (henv.mono fun _ _ => hlater.names).bind
        (names_intern t name) (hv _)
      obtain ⟨hlater', hcounterpart⟩ := ih henv'
      exact ⟨hlater.trans hlater', hcounterpart⟩

theorem forall₂_topBindings {ν μ : Type} :
    List.Forall₂ (fun b b' => b.1 = b'.1 ∧ ∀ N, b.2.Counterpart N b'.2)
      (topBindings (ν := ν)) (topBindings (ν := μ)) := by
  refine List.rel_append ?_ (.cons ⟨rfl, fun _ => .boolean true⟩
    (.cons ⟨rfl, fun _ => .boolean false⟩ .nil))
  rw [List.forall₂_map_left_iff, List.forall₂_map_right_iff, List.forall₂_same]
  exact fun op _ => ⟨rfl, fun _ => .primitive op⟩

theorem top_counterpart (t : σ) :
    I.Later t (I.top t).2 ∧
      (I.top t).1.Counterpart (I.Names (I.top t).2) .top :=
  bindAll_counterpart forall₂_topBindings .empty

/-- The failure with a spelling for the name in it, if the table has the
name. -/
def spell? (I : Interner σ S) (t : σ) : EvalError S → Option (EvalError String)
  | .unboundName s => (I.resolve? t s).map .unboundName
  | .typeMismatch detail => some (.typeMismatch detail)
  | .arity callee expected got => some (.arity callee expected got)
  | .divideByZero => some .divideByZero
  | .notCallable text => some (.notCallable text)

theorem spell?_eq {t : σ} {e : EvalError S} {e' : EvalError String}
    (h : e.Counterpart (I.Names t) e') : I.spell? t e = some e' := by
  cases h with
  | unboundName h => exact congrArg (Option.map EvalError.unboundName) h
  | typeMismatch | arity | divideByZero | notCallable => rfl

/-- Evaluates a source that holds one expression and writes its value, with
symbols for names. The failure is none if its name has no spelling. -/
def interpret (I : Interner σ S) (depth : Nat) (source : String) (t : σ) :
    Run (Option Error) String :=
  match (I.ofSource source).run t with
  | (.error e, _) => .fail (some (.illFormed e))
  | (.ok e, t) =>
    let (env, t) := I.top t
    return (← Run.mapError (fun e => (I.spell? t e).map .runtime)
      (e.eval depth env)).text

theorem text_eq {t : σ} {x : EvalM S (Value S)}
    {y : EvalM String (Value String)} (h : EvalM.Counterpart (I.Names t) x y) :
    (do return (← Run.mapError (fun e => (I.spell? t e).map .runtime) x).text :
      Run (Option Error) String) =
    Run.mapError some (do return (← Run.mapError Error.runtime y).text) := by
  funext next
  have h := h next
  simp only [bind, Run.bind, Run.mapError]
  generalize x next = o, y next = o' at h
  cases h with
  | @value v v' next h =>
      show Outcome.value (v.text, next) = Outcome.value (v'.text, next)
      rw [h.text_eq]
  | @error e e' h =>
      show Outcome.error ((I.spell? t e).map Error.runtime) = _
      rw [spell?_eq h]
      rfl
  | exhausted => rfl

theorem interpret_eq (depth : Nat) (source : String) (t : σ) :
    I.interpret depth source t =
      Run.mapError some (Program.interpret depth source) := by
  obtain ⟨r, t₁, hrun, -, hr⟩ := follows_ofSource (I := I) t source
  rw [interpret, hrun, Program.interpret, Program.eval]
  generalize Expr.ofSource source = r' at hr
  cases hr with
  | error h => cases h; rfl
  | ok he =>
      obtain ⟨hlater, htop⟩ := top_counterpart (I := I) t₁
      exact text_eq (Expr.eval_counterpart (biUnique_names (I.top t₁).2) depth
        (hlater.counterpart he) htop)

/-- Whatever the table has, and whatever is interned afterwards: equal symbols
are those of equal names and keep their names, and parameter lists, lookups,
visible names, parsing, evaluation and failures are those of the spellings. -/
theorem interning_is_invisible (I : Interner σ S) (t : σ) :
    (∀ a t', I.Later (I.intern t a).2 t' →
      I.resolve? t' (I.intern t a).1 = some a ∧
        ∀ b, (I.intern t' b).1 = (I.intern t a).1 ↔ b = a) ∧
    (∀ terms, I.Follows t (fun t => List.Forall₂ (I.Names t))
      (Expr.parameters I.symbol terms) (Expr.parameters Pure.pure terms)) ∧
    (∀ term, I.Follows t (fun t => Expr.Counterpart (I.Names t))
      (Expr.ofTermWith I.symbol term) (Expr.ofTerm term)) ∧
    (∀ source, I.Follows t (fun t => Expr.Counterpart (I.Names t))
      (I.ofSource source) (Expr.ofSource source)) ∧
    (∀ t' env env', I.Later t t' → Env.Counterpart (I.Names t) env env' →
      (∀ s name, I.Names t' s name →
        AnswersAlike (EvalError.Counterpart (I.Names t'))
          (Value.Counterpart (I.Names t')) (env.lookup s) (env'.lookup name)) ∧
      List.Forall₂ (I.Names t') env.names env'.names ∧
      ∀ depth e e', Expr.Counterpart (I.Names t') e e' →
        EvalM.Counterpart (I.Names t') (Expr.eval depth e env)
          (Expr.eval depth e' env')) ∧
    ∀ depth source, I.interpret depth source t =
      Run.mapError some (Program.interpret depth source) := by
  refine ⟨fun a t' h => ⟨h.names (names_intern t a), fun b => intern_eq_iff h⟩,
    fun terms => follows_parametersFrom .nil terms, follows_ofTerm t,
    follows_ofSource t, fun t' env env' h henv => ?_, fun depth source =>
    interpret_eq depth source t⟩
  have hN : BiUnique (I.Names t') := biUnique_names t'
  replace henv : env.Counterpart (I.Names t') env' :=
    henv.mono fun _ _ => h.names
  exact ⟨fun s name => henv.lookup hN, henv.names hN, fun depth e e' he =>
    Expr.eval_counterpart hN depth he henv⟩

/-- A table with two names, to which two more come: the first of these keeps its
spelling. And a run whose failure has to name one of the older two. -/
theorem unbound_name_keeps_its_spelling :
    SymbolTable.interner.resolve?
      (((SymbolTable.empty.internAll ["x", "y"]).2.intern "z").2.intern "w").2
      ((SymbolTable.empty.internAll ["x", "y"]).2.intern "z").1 = some "z" ∧
    (SymbolTable.interner.interpret 9 "{{lam {x} y} +}"
      (SymbolTable.empty.internAll ["x", "y"]).2).outcome =
        .error (some (.runtime (.unboundName "y"))) := by
  obtain ⟨hkeeps, -, -, -, -, hinterpret⟩ := interning_is_invisible
    SymbolTable.interner (SymbolTable.empty.internAll ["x", "y"]).2
  refine ⟨(hkeeps "z" _ (.intern (.refl _) "w")).1, ?_⟩
  rw [hinterpret]
  decide +kernel

end Interner
end BraceLisp
