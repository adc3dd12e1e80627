import BraceLisp.Proofs.Concatenation
import BraceLisp.Proofs.Calls

/-!
# Stages

A source is cut into tokens, the tokens are read as terms, the terms are parsed,
and only then are the expressions evaluated. Each stage has faults of its own,
so a fault tells which stage found it (`SyntaxError.stage`), and what evaluation
fails with is none of them, in kind or in wording (`EvalError.Raised`).

`Program.FirstFault` says which fault comes first when the stages follow each
other: one stage has gone through all of the source before the next begins. A
program fails with this fault, whatever the expressions in front of it would come
to, and a program that has no fault is the evaluation of its expressions from
left to right (`Program.Evaluated`), up to the first that fails.
-/

namespace BraceLisp

/-! ## The faults of a stage -/

/-- What is done with a source before it runs, in this order. -/
inductive Stage where
  | lexing
  | reading
  | parsing

/-- The stage that finds a fault of this kind. -/
def SyntaxError.stage : SyntaxError → Stage
  | unterminatedString _ | unknownEscape _ _ => .lexing
  | unexpectedClose _ | unclosedGroup _ | unexpectedEnd
  | trailingInput _ => .reading
  | malformedIf | malformedLam | malformedVar | duplicateParameter _
  | reservedWord _ | invalidParameter _ | emptyApplication => .parsing

namespace Cursor

theorem stage_of_stringFrom {opened p : Position} {reversed text : List Char}
    {e : SyntaxError} {c : Cursor}
    (h : stringFrom opened reversed p text = .failed e c) :
    e.stage = .lexing := by
  fun_induction stringFrom opened reversed p text with
  | case1 | case2 | case4 => cases h; rfl
  | case3 _ _ _ _ _ _ _ ih => exact ih h
  | case5 => cases h
  | case6 _ _ _ _ _ _ _ ih => exact ih h

theorem stage_of_next {c c' : Cursor} {e : SyntaxError}
    (h : c.next = .failed e c') : e.stage = .lexing := by
  unfold next at h
  dsimp only at h
  split at h
  · cases h
  · cases h
  · cases h
  · exact stage_of_stringFrom h
  · cases h

end Cursor

namespace Term

theorem stage_of_nextWithin {groups : List OpenGroup}
    {tokens rest : List Token} {e : SyntaxError}
    (h : nextWithin groups tokens = (.error e, rest)) :
    e.stage = .reading := by
  fun_induction nextWithin groups tokens with
  | case1 | case2 | case4 => cases h; rfl
  | case3 _ _ _ ih => exact ih h
  | case5 | case7 => cases h
  | case6 _ _ _ _ _ ih => exact ih h
  | case8 _ _ _ _ _ ih => exact ih h

theorem stage_of_next {tokens rest : List Token} {e : SyntaxError}
    (h : next tokens = (.error e, rest)) : e.stage = .reading :=
  stage_of_nextWithin h

end Term

namespace Expr

theorem stage_of_ofTerm {t : Term} {e : SyntaxError}
    (h : ofTerm t = .error e) : e.stage = .parsing := by
  obtain ⟨u, -, hevidence⟩ := exists_evidence h
  cases hevidence <;> rfl

end Expr

/-! ## The failures of evaluation -/

variable {ν : Type}

/-- What an evaluation fails with. Where arguments are counted, it is for a
closure or for an operator, and there are more or fewer than it takes. -/
inductive EvalError.Raised : EvalError ν → Prop where
  | unboundName (name : ν) : Raised (.unboundName name)
  | typeMismatch (detail : String) : Raised (.typeMismatch detail)
  | closureArity {expected got : Nat} (h : expected ≠ got) :
      Raised (.arity "closure" expected got)
  | operatorArity (op : Primitive) {got : Nat} (h : op.arity ≠ got) :
      Raised (.arity op.name op.arity got)
  | divideByZero : Raised .divideByZero
  | notCallable (text : String) : Raised (.notCallable text)

theorem Primitive.raised_of_apply {op : Primitive} {args : List (Value ν)}
    {e : EvalError ν} (h : op.apply args = .error e) : e.Raised := by
  match args with
  | [a, b] =>
      rcases applyPair_eq_error h with ⟨detail, rfl⟩ | rfl
      · exact .typeMismatch detail
      · exact .divideByZero
  | [] | [_] | _ :: _ :: _ :: _ =>
      cases h
      exact .operatorArity op (by simp [arity])

/-- The computation fails as evaluation does, if it fails. -/
abbrev Run.Raises (x : EvalM ν (Value ν)) : Prop :=
  x.Ensures (fun _ => True) EvalError.Raised

theorem Value.applyWith_raises {run : Expr ν → Env ν → EvalM ν (Value ν)}
    (hrun : ∀ e env, Run.Raises (run e env)) (f : Value ν)
    (args : List (Value ν)) : Run.Raises (f.applyWith run args) := by
  cases f with
  | number | string | boolean => exact .fail (.notCallable _)
  | primitive op =>
      exact .ofExcept (fun _ _ => trivial) fun e he =>
        Primitive.raised_of_apply he
  | closure i params body env =>
      refine .bind (P := fun _ => True) (.ofExcept (fun _ _ => trivial) ?_)
        fun env' _ => hrun body env'
      intro e he
      rw [Env.extend] at he
      split at he
      · cases he
      · next hlen => cases he; exact .closureArity hlen

theorem Expr.eval_raises [DecidableEq ν] (depth : Nat) (e : Expr ν)
    (env : Env ν) : Run.Raises (e.eval depth env) := by
  induction depth generalizing e env with
  | zero => exact .exhausted
  | succ depth ih =>
      cases e with
      | number | string => exact .pure trivial
      | ident x =>
          refine .ofExcept (fun _ _ => trivial) fun err herr => ?_
          rw [Env.lookup] at herr
          split at herr
          · cases herr
          · cases herr; exact .unboundName x
      | lam params body => exact .bind .fresh fun _ _ => .pure trivial
      | cond t a b =>
          refine .bind (ih t env) fun v _ => ?_
          split
          · exact ih a env
          · exact ih b env
          · exact .fail (.typeMismatch _)
      | app f args =>
          exact .bind (ih f env) fun g _ =>
            .bind (evalEach_ensures fun a _ => ih a env) fun vs _ =>
              g.applyWith_raises ih vs

theorem head?_toList_append {s : String} {c : Char}
    (h : s.toList.head? = some c) (t : String) :
    (s ++ t).toList.head? = some c := by
  rw [String.toList_append, List.head?_append, h]
  rfl

theorem EvalError.Raised.head?_message {e : EvalError String}
    (h : e.Raised) : ∃ c, e.message.toList.head? = some c ∧ c ≠ 's' := by
  have harity : ∀ {callee : String} {c : Char} (m n : Nat),
      callee.toList.head? = some c →
        (EvalError.arity callee m n).message.toList.head? = some c :=
    fun m n hc => head?_toList_append (head?_toList_append
      (head?_toList_append (head?_toList_append hc _) _) _) _
  cases h with
  | unboundName name =>
      exact ⟨'u', head?_toList_append
        (head?_toList_append (by decide) name) _, by decide⟩
  | typeMismatch detail =>
      exact ⟨'t', head?_toList_append (by decide) detail, by decide⟩
  | closureArity => exact ⟨'c', harity _ _ (by decide), by decide⟩
  | operatorArity op =>
      obtain ⟨c, hc, hs⟩ : ∃ c, op.name.toList.head? = some c ∧ c ≠ 's' := by
        cases op <;> exact ⟨_, rfl, by decide⟩
      exact ⟨c, harity _ _ hc, hs⟩
  | divideByZero => exact ⟨'d', by decide, by decide⟩
  | notCallable text =>
      exact ⟨'c', head?_toList_append (by decide) text, by decide⟩

/-- No failure of an evaluation reads like the fault of a source. -/
theorem EvalError.Raised.not_illFormed {e : EvalError String} (h : e.Raised) :
    ¬"ZHRL: syntax error: ".toList <+: (Error.runtime e).message.toList := by
  intro hmessage
  have hstart : "ZHRL: syntax error: ".toList =
      "ZHRL: ".toList ++ "syntax error: ".toList := by
    decide
  have hview : (Error.runtime e).message = "ZHRL: " ++ e.message := rfl
  rw [hstart, hview, String.toList_append,
    List.prefix_append_right_inj] at hmessage
  obtain ⟨text, htext⟩ := hmessage
  obtain ⟨c, hc, hs⟩ := h.head?_message
  rw [← htext] at hc
  exact hs (Option.some.inj hc.symm)

/-! ## The first fault -/

namespace Cursor

/-- The tokens that the lexer takes from one cursor on, one after another, and
the cursor that is left. -/
inductive Takes : Cursor → List Token → Cursor → Prop where
  | refl (c : Cursor) : Takes c [] c
  | step {c c' c'' : Cursor} {t : Token} {ts : List Token}
      (h : c.next = .token t c') (hrest : Takes c' ts c'') :
      Takes c (t :: ts) c''

theorem tokensFrom_eq_error_iff {c : Cursor} {reversed : List Token}
    {e : SyntaxError} : c.tokensFrom reversed = .error e ↔
      ∃ ts c' c'', c.Takes ts c' ∧ c'.next = .failed e c'' := by
  constructor
  · intro h
    fun_induction tokensFrom reversed c with
    | case1 reversed c t c' hnext _ ih =>
        obtain ⟨ts, c₁, c₂, htakes, hfailed⟩ := ih h
        exact ⟨t :: ts, c₁, c₂, .step hnext htakes, hfailed⟩
    | case2 reversed c e' c' hnext =>
        cases h
        exact ⟨[], c, c', .refl c, hnext⟩
    | case3 => cases h
  · rintro ⟨ts, c', c'', htakes, hfailed⟩
    induction htakes generalizing reversed with
    | refl c => rw [tokensFrom_eq, hfailed]
    | step h _ ih =>
        rw [tokensFrom_of_next h]
        exact ih hfailed

end Cursor

namespace Term

/-- The terms that are read from the tokens on, one after another, and the
tokens that are left. -/
inductive Reads : List Token → List Term → List Token → Prop where
  | refl (tokens : List Token) : Reads tokens [] tokens
  | step {tokens rest rest' : List Token} {t : Term} {ts : List Term}
      (h : next tokens = (.ok t, rest)) (hrest : Reads rest ts rest') :
      Reads tokens (t :: ts) rest'

theorem ne_nil_of_next {tokens rest : List Token} {t : Term}
    (h : next tokens = (.ok t, rest)) : tokens ≠ [] := by
  rintro rfl
  cases h

theorem allOfTokensFrom_eq_error_iff {reversed : List Term}
    {tokens : List Token} {e : SyntaxError} :
    allOfTokensFrom reversed tokens = .error e ↔
      ∃ ts rest rest', Reads tokens ts rest ∧ rest ≠ [] ∧
        next rest = (.error e, rest') := by
  constructor
  · intro h
    fun_induction allOfTokensFrom reversed tokens with
    | case1 => cases h
    | case2 reversed t tokens e' rest hnext =>
        cases h
        exact ⟨[], _, rest, .refl _, List.cons_ne_nil _ _, hnext⟩
    | case3 reversed token tokens t rest hnext _ ih =>
        obtain ⟨ts, rest₁, rest₂, hreads, hne, hfault⟩ := ih h
        exact ⟨t :: ts, rest₁, rest₂, .step hnext hreads, hne, hfault⟩
  · rintro ⟨ts, rest, rest', hreads, hne, hfault⟩
    induction hreads generalizing reversed with
    | refl tokens => exact allOfTokensFrom_of_fault hne hfault reversed
    | step h _ ih =>
        rw [allOfTokensFrom_of_next (ne_nil_of_next h) h]
        exact ih hne hfault

end Term

namespace Expr

theorem ofTerms_eq_error_iff {terms : List Term} {e : SyntaxError} :
    ofTerms terms = .error e ↔
      ∃ before t after, terms = before ++ t :: after ∧
        (∀ u ∈ before, ∃ f, ofTerm u = .ok f) ∧ ofTerm t = .error e := by
  constructor
  · intro h
    induction terms with
    | nil => rw [ofTerms_nil] at h; cases h
    | cons t terms ih =>
        rw [ofTerms_cons] at h
        rcases bind_eq_error_iff.mp h with h | ⟨f, hf, h⟩
        · exact ⟨[], t, terms, rfl, nofun, h⟩
        · rcases bind_eq_error_iff.mp h with h | ⟨_, -, h⟩
          · obtain ⟨before, u, after, rfl, hbefore, hu⟩ := ih h
            exact ⟨t :: before, u, after, rfl,
              List.forall_mem_cons.mpr ⟨⟨f, hf⟩, hbefore⟩, hu⟩
          · cases h
  · rintro ⟨before, t, after, rfl, hbefore, ht⟩
    obtain ⟨fs, hfs⟩ := ofTerms_isOk_iff.mpr hbefore
    have hafter : ofTerms (t :: after) = .error e := by
      rw [ofTerms_cons, ht]
      rfl
    rw [ofTerms_append hfs, hafter]
    rfl

end Expr

namespace Program

/-- The fault of a source that is found first. A later stage only begins when
the earlier ones have gone through all of the source. -/
inductive FirstFault (source : String) : SyntaxError → Prop where
  | lexing {ts : List Token} {c c' : Cursor} {e : SyntaxError}
      (hbefore : (Cursor.start source).Takes ts c)
      (h : c.next = .failed e c') : FirstFault source e
  | reading {ts : Tokens} {terms : List Term} {rest rest' : List Token}
      {e : SyntaxError} (htokens : Tokens.ofSource source = .ok ts)
      (hbefore : Term.Reads ts.tokens terms rest) (hne : rest ≠ [])
      (h : Term.next rest = (.error e, rest')) : FirstFault source e
  | parsing {before after : List Term} {t : Term} {e : SyntaxError}
      (hterms : Term.allOfSource source = .ok (before ++ t :: after))
      (hbefore : ∀ u ∈ before, ∃ f, Expr.ofTerm u = .ok f)
      (h : Expr.ofTerm t = .error e) : FirstFault source e

theorem exprs_eq_error_iff {source : String} {e : SyntaxError} :
    exprs source = .error e ↔ FirstFault source e := by
  rw [exprs, bind_eq_error_iff, Term.allOfSource]
  constructor
  · rintro (h | ⟨terms, hterms, h⟩)
    · split at h
      · next htokens =>
          cases h
          obtain ⟨ts, c, c', htakes, hfailed⟩ :=
            Cursor.tokensFrom_eq_error_iff.mp htokens
          exact .lexing htakes hfailed
      · next htokens =>
          obtain ⟨terms, rest, rest', hreads, hne, hfault⟩ :=
            Term.allOfTokensFrom_eq_error_iff.mp h
          exact .reading htokens hreads hne hfault
    · obtain ⟨before, t, after, rfl, hbefore, ht⟩ :=
        Expr.ofTerms_eq_error_iff.mp h
      exact .parsing hterms hbefore ht
  · intro h
    cases h with
    | lexing hbefore h =>
        have htokens : Tokens.ofSource source = .error e :=
          Cursor.tokensFrom_eq_error_iff.mpr ⟨_, _, _, hbefore, h⟩
        rw [htokens]
        exact .inl rfl
    | reading htokens hbefore hne h =>
        rw [htokens]
        exact .inl (Term.allOfTokensFrom_eq_error_iff.mpr
          ⟨_, _, _, hbefore, hne, h⟩)
    | parsing hterms hbefore h =>
        exact .inr ⟨_, hterms, Expr.ofTerms_eq_error_iff.mpr
          ⟨_, _, _, rfl, hbefore, h⟩⟩

/-! ## Evaluation from left to right -/

/-- Expressions evaluated from left to right at the top level, up to the first
that fails: the value of the last, or `last` if there are none. `next` is the
first identity that may be drawn. -/
inductive Evaluated : Option (Value String) → List (Expr String) → Nat →
    Except (EvalError String) (Option (Value String)) → Prop where
  | done {last : Option (Value String)} {next : Nat} :
      Evaluated last [] next (.ok last)
  | value {last : Option (Value String)} {e : Expr String}
      {es : List (Expr String)} {depth next next' : Nat} {v : Value String}
      {r : Except (EvalError String) (Option (Value String))}
      (he : e.eval depth .top next = .value (v, next'))
      (hes : Evaluated (some v) es next' r) : Evaluated last (e :: es) next r
  | failure {last : Option (Value String)} {e : Expr String}
      {es : List (Expr String)} {depth next : Nat} {err : EvalError String}
      (he : e.eval depth .top next = .error err) :
      Evaluated last (e :: es) next (.error err)

theorem ends_evalLast_iff {last : Option (Value String)}
    {es : List (Expr String)} {next : Nat}
    {r : Except (EvalError String) (Option (Value String))} :
    Run.Ends (fun depth => evalLast depth last es) next r ↔
      Evaluated last es next r := by
  constructor
  · rintro ⟨depth, h⟩
    induction es generalizing last next with
    | nil => cases h; exact .done
    | cons e es ih =>
        replace h : (Run.bind (e.eval depth .top)
          (fun v => evalLast depth (some v) es) next).answer? = some r := h
        rw [Run.bind] at h
        split at h
        · next v next' he => exact .value he (ih h)
        · next err he => cases h; exact .failure he
        · cases h
  · intro h
    induction h with
    | done => exact ⟨0, rfl⟩
    | @value last e es depth next next' v r he _ ih =>
        obtain ⟨depth', hes⟩ := ih
        -- The greater of the two depths is enough for all of them.
        have he' : e.eval (max depth depth') .top next = .value (v, next') := by
          rw [Expr.eval_extends_of_le (Nat.le_max_left _ _) e .top next, he]
          rw [he]
          intro h
          cases h
        have hes' := (evalLast_deepens (some v) es).eq_of_answer?
          (Nat.le_max_right depth depth') hes
        refine ⟨max depth depth', ?_⟩
        show (evalLast _ last (e :: es) next).answer? = some r
        rw [evalLast, Run.bind_of_value he', hes', hes]
    | @failure last e es depth next err he =>
        refine ⟨depth, ?_⟩
        show (Run.bind (e.eval depth .top) _ next).answer? = _
        rw [Run.bind, he]
        rfl

theorem runEnds_illFormed_iff {source : String} {next : Nat}
    {e : SyntaxError} :
    RunEnds source next (.error (.illFormed e)) ↔ FirstFault source e := by
  rw [← exprs_eq_error_iff]
  cases hes : exprs source with
  | error e' =>
      rw [runEnds_of_fault hes]
      constructor
      · intro h; cases h; rfl
      · intro h; cases h; rfl
  | ok es =>
      rw [runEnds_of_exprs hes]
      constructor
      · rintro ⟨s, -, hs⟩
        cases s <;> cases hs
      · nofun

/-- A source without a fault has expressions. -/
theorem exists_exprs {source : String} (h : ∀ e, ¬FirstFault source e) :
    ∃ terms es, Term.allOfSource source = .ok terms ∧
      List.Forall₂ (fun t e => Expr.ofTerm t = .ok e) terms es ∧
      exprs source = .ok es := by
  cases hes : exprs source with
  | error e => exact absurd (exprs_eq_error_iff.mp hes) (h e)
  | ok es =>
      obtain ⟨terms, hterms, hes⟩ := bind_eq_ok_iff.mp hes
      exact ⟨terms, es, hterms, Expr.ofTerms_eq_ok_iff.mp hes, rfl⟩

theorem runEnds_iff_evaluated {source : String} {es : List (Expr String)}
    (hes : exprs source = .ok es) {next : Nat}
    {r : Except Error (Option (Value String))} :
    RunEnds source next r ↔
      ∃ s, Evaluated none es next s ∧ r = s.mapError .runtime := by
  simp only [runEnds_of_exprs hes, ends_evalLast_iff]

end Program

/-! ## The stage of a fault, and the kind of a failure -/

theorem Tokens.stage_of_ofSource {source : String} {e : SyntaxError}
    (h : ofSource source = .error e) : e.stage = .lexing := by
  obtain ⟨ts, c, c', -, hfailed⟩ := Cursor.tokensFrom_eq_error_iff.mp h
  exact Cursor.stage_of_next hfailed

namespace Term

theorem stage_of_ofSource {source : String} {e : SyntaxError}
    (h : ofSource source = .error e) :
    e.stage = .lexing ∨ e.stage = .reading := by
  unfold ofSource at h
  split at h
  · next htokens => cases h; exact .inl (Tokens.stage_of_ofSource htokens)
  · split at h
    · next hnext => cases h; exact .inr (stage_of_next hnext)
    · cases h
    · cases h; exact .inr rfl

theorem stage_of_allOfSource {source : String} {e : SyntaxError}
    (h : allOfSource source = .error e) :
    e.stage = .lexing ∨ e.stage = .reading := by
  unfold allOfSource at h
  split at h
  · next htokens => cases h; exact .inl (Tokens.stage_of_ofSource htokens)
  · obtain ⟨ts, rest, rest', -, -, hfault⟩ :=
      allOfTokensFrom_eq_error_iff.mp h
    exact .inr (stage_of_next hfault)

end Term

/-- A failure while a program runs, which no fault of a source is or reads
like. -/
def Error.OfRun (e : Error) : Prop :=
  (∃ cause : EvalError String, e = .runtime cause ∧ cause.Raised) ∧
    ¬"ZHRL: syntax error: ".toList <+: e.message.toList

theorem Run.Raises.ofRun {x : EvalM String (Value String)} (hx : Raises x)
    {next : Nat} {e : Error} (h : x.mapError .runtime next = .error e) :
    e.OfRun := by
  have hensures := hx.mapError (f := Error.runtime) (R := Error.OfRun)
    (fun cause hcause => ⟨⟨cause, rfl, hcause⟩, hcause.not_illFormed⟩) next
  rw [h] at hensures
  cases hensures with
  | error h => exact h

/-! ## The law -/

/-- Evaluation and application only fail in ways of their own, and each stage
before them finds faults of its own. So a program fails for its source if and
only if a stage fails on the whole of it, and then with the first fault, of
which there is one, whatever its expressions would come to; and otherwise it is
the evaluation of all its expressions, from left to right. -/
theorem Program.fails_at_first_fault :
    ((∀ depth (e : Expr String) (env : Env String) next (err : Error),
        Run.mapError Error.runtime (e.eval depth env) next = .error err →
          err.OfRun) ∧
      ∀ depth (f : Value String) (args : List (Value String)) next
        (err : Error),
        Run.mapError Error.runtime (f.apply depth args) next = .error err →
          err.OfRun) ∧
    ((∀ (c c' : Cursor) e, c.next = .failed e c' → e.stage = .lexing) ∧
      (∀ source e, Tokens.ofSource source = .error e → e.stage = .lexing) ∧
      (∀ tokens rest e, Term.next tokens = (.error e, rest) →
        e.stage = .reading) ∧
      (∀ source e, Term.ofSource source = .error e ∨
          Term.allOfSource source = .error e →
        e.stage = .lexing ∨ e.stage = .reading) ∧
      ∀ t e, Expr.ofTerm t = .error e → e.stage = .parsing) ∧
    ∀ source,
      (∀ e next, RunEnds source next (.error (.illFormed e)) ↔
        FirstFault source e) ∧
      (∀ e e', FirstFault source e → FirstFault source e' → e = e') ∧
      ((∀ e, ¬FirstFault source e) → ∃ terms es,
        Term.allOfSource source = .ok terms ∧
        List.Forall₂ (fun t e => Expr.ofTerm t = .ok e) terms es ∧
        ∀ next r, RunEnds source next r ↔
          ∃ s, Evaluated none es next s ∧ r = s.mapError .runtime) := by
  refine ⟨⟨?_, ?_⟩, ⟨?_, ?_, ?_, ?_, ?_⟩, fun source => ⟨?_, ?_, ?_⟩⟩
  · exact fun depth e env next err h => (e.eval_raises depth env).ofRun h
  · exact fun depth f args next err h =>
      (f.applyWith_raises (Expr.eval_raises depth) args).ofRun h
  · exact fun c c' e h => Cursor.stage_of_next h
  · exact fun source e h => Tokens.stage_of_ofSource h
  · exact fun tokens rest e h => Term.stage_of_next h
  · rintro source e (h | h)
    · exact Term.stage_of_ofSource h
    · exact Term.stage_of_allOfSource h
  · exact fun t e h => Expr.stage_of_ofTerm h
  · exact fun e next => runEnds_illFormed_iff
  · intro e e' h h'
    have hfault := exprs_eq_error_iff.mpr h
    rw [exprs_eq_error_iff.mpr h'] at hfault
    exact (Except.error.inj hfault).symm
  · intro h
    obtain ⟨terms, es, hterms, hes, hexprs⟩ := exists_exprs h
    exact ⟨terms, es, hterms, hes, fun next r => runEnds_iff_evaluated hexprs⟩

/-- A brace too many before an escape that does not exist: the lexer's fault is
first, though it stands behind. An unbound name before a malformed `if` is never
looked up; by itself it is what the program fails with. -/
theorem Program.brace_before_escape :
    let escape : SyntaxError := .unknownEscape 'q' ⟨1, 3⟩
    let unbound : Error := .runtime (.unboundName "y")
    (Tokens.ofSource "\x7d\"\\q" = .error escape ∧ escape.stage = .lexing ∧
      FirstFault "\x7d\"\\q" escape ∧
      (∀ e, FirstFault "\x7d\"\\q" e → escape = e) ∧
      ∀ next, RunEnds "\x7d\"\\q" next (.error (.illFormed escape))) ∧
    (Cursor.next ⟨.start, ['"']⟩ =
        .failed (.unterminatedString .start) ⟨⟨1, 2⟩, []⟩ ∧
      (SyntaxError.unterminatedString .start).stage = .lexing) ∧
    (Term.next [⟨.closeBrace, .start⟩] =
        (.error (.unexpectedClose .start), []) ∧
      (SyntaxError.unexpectedClose .start).stage = .reading) ∧
    (Expr.ofTerm (.list [.symbol "if"]) = .error .malformedIf ∧
      SyntaxError.malformedIf.stage = .parsing ∧
      FirstFault "y\x7bif\x7d" .malformedIf ∧
      ∀ next, RunEnds "y\x7bif\x7d" next (.error (.illFormed .malformedIf))) ∧
    (∀ e, ¬FirstFault "y" e) ∧ RunEnds "y" 0 (.error unbound) ∧
    unbound.OfRun ∧ (Error.runtime (.notCallable "true")).OfRun := by
  intro escape unbound
  have htokens : Tokens.ofSource "\x7d\"\\q" = .error escape := by
    decide +kernel
  have hescape : FirstFault "\x7d\"\\q" escape := by
    rw [← exprs_eq_error_iff, exprs, Term.allOfSource, htokens]
    rfl
  have hif : Expr.ofTerm (.list [.symbol "if"]) = .error .malformedIf := by
    rw [Expr.ofTerm_list]
    rfl
  have hy : Expr.ofTerm (.symbol "y") = .ok (.ident "y") := by
    with_unfolding_all rfl
  have hterms : Term.allOfSource "y\x7bif\x7d" =
      .ok ([.symbol "y"] ++ .list [.symbol "if"] :: []) :=
    Term.allOfSource_eq_ok_iff.mpr (by decide +kernel)
  have hmalformed : FirstFault "y\x7bif\x7d" .malformedIf :=
    .parsing hterms (List.forall_mem_singleton.mpr ⟨_, hy⟩) hif
  have hterm : Term.allOfSource "y" = .ok [.symbol "y"] :=
    Term.allOfSource_eq_ok_iff.mpr (by decide +kernel)
  have hexprs : exprs "y" = .ok [.ident "y"] := by
    rw [exprs, hterm]
    with_unfolding_all rfl
  have hnone : ∀ e, ¬FirstFault "y" e := by
    intro e he
    rw [← exprs_eq_error_iff, hexprs] at he
    cases he
  obtain ⟨⟨heval, happly⟩, ⟨hnext, hlexed, hread, -, hparsed⟩, hsource⟩ :=
    fails_at_first_fault
  refine ⟨⟨htokens, hlexed _ _ htokens, hescape,
      fun e => (hsource _).2.1 _ e hescape, fun next => ?_⟩,
    ⟨rfl, hnext ⟨.start, ['"']⟩ _ _ rfl⟩,
    ⟨rfl, hread [⟨.closeBrace, .start⟩] _ _ rfl⟩,
    ⟨hif, hparsed _ _ hif, hmalformed, fun next => ?_⟩, hnone, ?_, ?_, ?_⟩
  · exact ((hsource _).1 _ next).mpr hescape
  · exact ((hsource _).1 _ next).mpr hmalformed
  · obtain ⟨terms, es, hterms', hes, hrun⟩ := (hsource "y").2.2 hnone
    rw [hterm] at hterms'
    cases hterms'
    obtain ⟨e, es, he, hnil, rfl⟩ := List.forall₂_cons_left_iff.mp hes
    cases hnil
    rw [hy] at he
    cases he
    have hfails : (Expr.ident "y").eval 1 .top 0 =
        .error (.unboundName "y") :=
      rfl
    exact (hrun 0 _).mpr ⟨_, .failure hfails, rfl⟩
  · exact heval 1 (.ident "y") .empty 0 _ rfl
  · exact happly 0 (.boolean true) [] 0 _ rfl

end BraceLisp
