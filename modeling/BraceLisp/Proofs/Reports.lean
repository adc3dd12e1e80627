import BraceLisp.Proofs.Lines
import BraceLisp.Proofs.Reading
import BraceLisp.Proofs.Stages

/-!
# Reports

An expression on the command line and a program in a file come to a report in
two ways: one reads a single term, the other all of them, and evaluates them one
after another. Both tell success from failure in the same way
(`Report.Consistent`): by the status, by the stream, and, if it is a failure, by
the first words, which name the source or the run.

Whether a source is at fault is settled before anything is evaluated, so the
words do not depend on the depth. And a source that is read as a single term is
evaluated alike in both ways (`Program.run_of_term`), so both come to one report.
-/

namespace BraceLisp

variable {ε δ α β : Type}

/-! ## Outcomes -/

/-- The outcome with its value put differently. -/
def Outcome.map (f : α → β) : Outcome ε α → Outcome ε β
  | value a => value (f a)
  | error e => error e
  | exhausted => exhausted

theorem Outcome.map_eq_error_iff {f : α → β} {o : Outcome ε α} {e : ε} :
    o.map f = .error e ↔ o = .error e := by
  cases o <;> simp [map]

theorem Outcome.map_eq_exhausted_iff {f : α → β} {o : Outcome ε α} :
    o.map f = .exhausted ↔ o = .exhausted := by
  cases o <;> simp [map]

theorem exists_error_iff {x : Except ε α} :
    (∃ e, x = .error e) ↔ ¬∃ a, x = .ok a := by
  cases x <;> simp

namespace Run

theorem outcome_map (f : α → β) (x : Run ε α) :
    (f <$> x).outcome = x.outcome.map f := by
  show (Run.bind x fun a => Run.pure (f a)).outcome = x.outcome.map f
  unfold outcome Run.bind
  cases x 0 <;> rfl

theorem map_map {γ : Type} (f : α → β) (g : β → γ) (x : Run ε α) :
    g <$> f <$> x = (fun a => g (f a)) <$> x := by
  funext next
  show Run.bind (Run.bind x fun a => Run.pure (f a))
    (fun b => Run.pure (g b)) next =
      Run.bind x (fun a => Run.pure (g (f a))) next
  unfold Run.bind
  cases x next <;> rfl

theorem mapError_map (f : α → β) (g : ε → δ) (x : Run ε α) :
    (f <$> x).mapError g = f <$> x.mapError g := by
  funext next
  show Run.mapError g (Run.bind x fun a => Run.pure (f a)) next =
    Run.bind (Run.mapError g x) (fun a => Run.pure (f a)) next
  simp only [Run.mapError, Run.bind]
  cases x next <;> rfl

/-- What goes through a source first and then runs is refused for the source if
and only if that is at fault. -/
theorem outcome_illFormed_iff (x : Except SyntaxError β)
    (f : β → EvalM String α) {e : SyntaxError} :
    (mapError Error.illFormed (ofExcept x) >>= fun b =>
        mapError Error.runtime (f b)).outcome = .error (.illFormed e) ↔
      x = .error e := by
  cases x with
  | error e' =>
      show Outcome.error (Error.illFormed e') = .error (.illFormed e) ↔ _
      rw [Outcome.error.injEq, Error.illFormed.injEq, Except.error.injEq]
  | ok b =>
      show (mapError Error.runtime (f b)).outcome = _ ↔ _
      refine iff_of_false ?_ (by intro h; cases h)
      rw [outcome, mapError]
      intro h
      cases hf : f b 0 <;> rw [hf] at h <;> cases h

theorem Deepens.outcome_eq {x : Nat → Run ε α} (hx : Deepens x) {d d' : Nat}
    (h : d ≤ d') (hd : (x d).outcome ≠ .exhausted) :
    (x d').outcome = (x d).outcome := by
  have hcut : x d 0 ≠ .exhausted := by
    intro hcut
    rw [outcome, hcut] at hd
    exact hd rfl
  rw [outcome, outcome, hx d d' h 0 hcut]

end Run

/-! ## One expression and programs -/

/-- The two readers agree on what is a single term. -/
theorem Term.ofSource_iff_allOfSource {source : String} {t : Term} :
    ofSource source = .ok t ↔ allOfSource source = .ok [t] := by
  rw [ofSource_eq_ok_iff, allOfSource_eq_ok_iff, flattenAll, flattenAll,
    List.append_nil]

namespace Program

theorem interpret_eq (depth : Nat) (source : String) :
    interpret depth source = Value.text <$> eval depth source :=
  rfl

theorem eval_of_expr {source : String} {e : Expr String}
    (h : Expr.ofSource source = .ok e) (depth : Nat) :
    eval depth source = Run.mapError .runtime (e.eval depth .top) := by
  rw [eval, h]
  rfl

theorem eval_of_fault {source : String} {e : SyntaxError}
    (h : Expr.ofSource source = .error e) (depth : Nat) :
    eval depth source = Run.fail (.illFormed e) := by
  rw [eval, h]
  rfl

theorem eval_deepens (source : String) :
    Run.Deepens (fun depth => eval depth source) :=
  fun d d' h => .bind (.refl _) fun e =>
    (e.eval_deepens .top).mapError Error.runtime d d' h

theorem interpret_eq_exhausted_iff {depth : Nat} {source : String} :
    (interpret depth source).outcome = .exhausted ↔
      (eval depth source).outcome = .exhausted := by
  rw [interpret_eq, Run.outcome_map, Outcome.map_eq_exhausted_iff]

/-- A source that is read as a single term runs as the evaluation of it. -/
theorem run_of_term {source : String} {t : Term}
    (h : Term.ofSource source = .ok t) (depth : Nat) :
    run depth source = some <$> eval depth source := by
  have hexpr : Expr.ofSource source = Expr.ofTerm t := by
    rw [Expr.ofSource, h]
    rfl
  have hexprs : exprs source = Expr.ofTerms [t] := by
    rw [exprs, Term.ofSource_iff_allOfSource.mp h]
    rfl
  rw [Expr.ofTerms_cons, Expr.ofTerms_nil] at hexprs
  cases he : Expr.ofTerm t with
  | error e =>
      rw [he] at hexpr hexprs
      rw [run_of_fault hexprs, eval_of_fault hexpr]
      rfl
  | ok e =>
      rw [he] at hexpr hexprs
      rw [run_of_exprs hexprs, eval_of_expr hexpr]
      exact Run.mapError_map some Error.runtime (e.eval depth .top)

theorem eval_illFormed_iff {depth : Nat} {source : String} {e : SyntaxError} :
    (eval depth source).outcome = .error (.illFormed e) ↔
      Expr.ofSource source = .error e :=
  Run.outcome_illFormed_iff _ _

theorem run_illFormed_iff {depth : Nat} {source : String} {e : SyntaxError} :
    (run depth source).outcome = .error (.illFormed e) ↔
      exprs source = .error e :=
  Run.outcome_illFormed_iff _ _

end Program

/-! ## What tells of a failure -/

namespace Error

theorem toList_line_illFormed (cause : SyntaxError) :
    (illFormed cause).line.toList =
      "Parse error: ZHRL: syntax error: ".toList ++ cause.message.toList := by
  have hline : (illFormed cause).line =
      "Parse error: " ++ ("ZHRL: syntax error: " ++ cause.message) :=
    rfl
  have hstart : "Parse error: " ++ "ZHRL: syntax error: " =
      "Parse error: ZHRL: syntax error: " := by
    decide
  rw [hline, ← String.append_assoc, hstart, String.toList_append]

theorem toList_line_runtime (cause : EvalError String) :
    (runtime cause).line.toList =
      "Error: ZHRL: ".toList ++ cause.message.toList := by
  have hline : (runtime cause).line =
      "Error: " ++ ("ZHRL: " ++ cause.message) :=
    rfl
  have hstart : "Error: " ++ "ZHRL: " = "Error: ZHRL: " := by decide
  rw [hline, ← String.append_assoc, hstart, String.toList_append]

/-- The line for a fault of the source and the one for a failure of its run
differ in their first words. -/
theorem prefix_line_iff (e : Error) :
    ("Parse error: ZHRL: syntax error: ".toList <+: e.line.toList ↔
        ∃ cause, e = illFormed cause) ∧
      ("Error: ZHRL: ".toList <+: e.line.toList ↔
        ∃ cause, e = runtime cause) := by
  have happart : ∀ x y : List Char,
      "Parse error: ZHRL: syntax error: ".toList ++ x ≠
        "Error: ZHRL: ".toList ++ y := by
    intro x y h
    have hhead : some 'P' = some 'E' := congrArg List.head? h
    exact absurd hhead (by decide)
  cases e with
  | illFormed cause =>
      rw [toList_line_illFormed]
      refine ⟨iff_of_true (List.prefix_append _ _) ⟨cause, rfl⟩,
        iff_of_false ?_ nofun⟩
      rintro ⟨rest, h⟩
      exact happart _ rest h.symm
  | runtime cause =>
      rw [toList_line_runtime]
      refine ⟨iff_of_false ?_ nofun,
        iff_of_true (List.prefix_append _ _) ⟨cause, rfl⟩⟩
      rintro ⟨rest, h⟩
      exact happart rest _ h

end Error

namespace Shell

/-- A report of success has nothing on standard error. One of failure has
nothing on standard output, and one line on standard error, which begins in one
way if the source is at fault and in another if it is not. -/
def Report.Consistent (fault : Prop) (r : Report) : Prop :=
  r.status = 0 ∧ r.output.err = "" ∧ ¬fault ∨
    r.status = 1 ∧ r.output.out = "" ∧ ∃ e : Error,
      r.output.err = e.line ++ "\n" ∧
      ("Parse error: ZHRL: syntax error: ".toList <+: e.line.toList ↔ fault) ∧
      ("Error: ZHRL: ".toList <+: e.line.toList ↔ ¬fault)

theorem Report.consistent_ofOutcome {o : Outcome Error (Option String)}
    {fault : Prop} (ho : o ≠ .exhausted)
    (hfault : (∃ cause, o = .error (.illFormed cause)) ↔ fault) :
    (ofOutcome o).Consistent fault := by
  cases o with
  | value shown =>
      have hfine : ¬fault := by
        rw [← hfault]
        nofun
      cases shown <;> exact .inl ⟨rfl, rfl, hfine⟩
  | error e =>
      obtain ⟨hparse, hrun⟩ := e.prefix_line_iff
      have hcause : (∃ cause, e = .illFormed cause) ↔ fault := by
        rw [← hfault]
        simp only [Outcome.error.injEq]
      refine .inr ⟨rfl, rfl, e, rfl, hparse.trans hcause, hrun.trans ?_⟩
      rw [← hcause]
      cases e with
      | illFormed cause => exact iff_of_false nofun (not_not_intro ⟨cause, rfl⟩)
      | runtime cause => exact iff_of_true ⟨cause, rfl⟩ nofun
  | exhausted => exact absurd rfl ho

namespace Report

theorem ofExpression_eq (depth : Nat) (source : String) :
    ofExpression depth source = ofOutcome
      ((Program.eval depth source).outcome.map fun v => some v.text) := by
  rw [ofExpression, Run.outcome_map, Program.interpret_eq, Run.outcome_map]
  cases (Program.eval depth source).outcome <;> rfl

theorem ofFile_eq (depth : Nat) (name source : String) :
    ofFile depth name (.ok source) = ofOutcome
      ((Program.run depth source).outcome.map (Option.map Value.text)) := by
  rw [ofFile, Run.outcome_map]

theorem ofExpression_consistent {depth : Nat} {source : String}
    (h : (Program.eval depth source).outcome ≠ .exhausted) :
    (ofExpression depth source).Consistent
      (¬∃ t e, Term.ofSource source = .ok t ∧ Expr.ofTerm t = .ok e) := by
  rw [ofExpression_eq]
  refine consistent_ofOutcome (mt Outcome.map_eq_exhausted_iff.mp h) ?_
  simp only [Outcome.map_eq_error_iff, Program.eval_illFormed_iff,
    exists_error_iff, Expr.ofSource, bind_eq_ok_iff]
  rw [exists_comm]

theorem ofFile_consistent {depth : Nat} {name source : String}
    (h : (Program.run depth source).outcome ≠ .exhausted) :
    (ofFile depth name (.ok source)).Consistent
      (¬∃ terms es, Term.allOfSource source = .ok terms ∧
        List.Forall₂ (fun t e => Expr.ofTerm t = .ok e) terms es) := by
  rw [ofFile_eq]
  refine consistent_ofOutcome (mt Outcome.map_eq_exhausted_iff.mp h) ?_
  simp only [Outcome.map_eq_error_iff, Program.run_illFormed_iff,
    exists_error_iff, Program.exprs, bind_eq_ok_iff,
    ← Expr.ofTerms_eq_ok_iff]
  rw [exists_comm]
  simp only [exists_and_left]
  rfl

end Report

/-- Evaluating a source and running a file that holds it each succeed or fail
consistently, as soon as they have depth enough, and more depth changes no
report. The source of an expression is at fault unless it is one term that
parses; that of a file unless it is terms that parse, of any number. If it is
one term, both report the same. -/
theorem Report.commands_consistent (source name : String)
    (hname : name.toList.head? ≠ some '-') :
    (Command.ofArgs ["-e", source] = .evaluate source ∧
      Command.ofArgs [name] = .file name) ∧
    (∀ depth, (Program.interpret depth source).outcome ≠ .exhausted →
      (ofExpression depth source).Consistent
        (¬∃ t e, Term.ofSource source = .ok t ∧ Expr.ofTerm t = .ok e) ∧
      ∀ depth', depth ≤ depth' →
        ofExpression depth' source = ofExpression depth source) ∧
    (∀ depth, (Program.run depth source).outcome ≠ .exhausted →
      (ofFile depth name (decode source.toUTF8)).Consistent
        (¬∃ terms es, Term.allOfSource source = .ok terms ∧
          List.Forall₂ (fun t e => Expr.ofTerm t = .ok e) terms es) ∧
      ∀ depth', depth ≤ depth' → ofFile depth' name (decode source.toUTF8) =
        ofFile depth name (decode source.toUTF8)) ∧
    (∀ t, Term.ofSource source = .ok t ↔ Term.allOfSource source = .ok [t]) ∧
    ∀ t, Term.ofSource source = .ok t → ∀ depth,
      ofFile depth name (decode source.toUTF8) =
        ofExpression depth source := by
  rw [decode_toUTF8]
  refine ⟨⟨rfl, ?_⟩, ?_, ?_, fun t => Term.ofSource_iff_allOfSource, ?_⟩
  · have hhelp : ¬(name = "--help" ∨ name = "-h") := by
      rintro (rfl | rfl) <;> exact hname rfl
    rw [Command.ofArgs, if_neg hhelp, if_neg hname]
  · intro depth h
    rw [ne_eq, Program.interpret_eq_exhausted_iff] at h
    refine ⟨ofExpression_consistent h, fun depth' hle => ?_⟩
    rw [ofExpression_eq, ofExpression_eq,
      (Program.eval_deepens source).outcome_eq hle h]
  · intro depth h
    refine ⟨ofFile_consistent h, fun depth' hle => ?_⟩
    rw [ofFile_eq, ofFile_eq, (Program.run_deepens source).outcome_eq hle h]
  · intro t ht depth
    rw [ofFile_eq, ofExpression_eq, Program.run_of_term ht, Run.outcome_map]
    cases (Program.eval depth source).outcome <;> rfl

/-- Two names where one expression is wanted: the source is at fault as an
expression, and in a file it is not, but the first name is unbound. -/
theorem Report.two_names_consistent :
    let name := "names.zhrl"
    name.toList.head? ≠ some '-' ∧
      ofExpression 2 "x y" = .failure ("Parse error: ZHRL: syntax error: " ++
        "unexpected input after expression at 1:3") ∧
      (ofExpression 2 "x y").Consistent (¬∃ t e,
        Term.ofSource "x y" = .ok t ∧ Expr.ofTerm t = .ok e) ∧
      ofFile 2 name (decode "x y".toUTF8) =
        .failure "Error: ZHRL: unbound name `x`" ∧
      (ofFile 2 name (decode "x y".toUTF8)).Consistent (¬∃ terms es,
        Term.allOfSource "x y" = .ok terms ∧
          List.Forall₂ (fun t e => Expr.ofTerm t = .ok e) terms es) ∧
      Term.ofSource " true ;" = .ok (.symbol "true") ∧
      ofFile 2 name (decode " true ;".toUTF8) = ofExpression 2 " true ;" ∧
      ofExpression 2 " true ;" = .success (.line "true") := by
  intro name
  have hname : name.toList.head? ≠ some '-' := by decide
  obtain ⟨-, hexpr, hfile, -⟩ := commands_consistent "x y" name hname
  obtain ⟨-, -, -, -, hsame⟩ := commands_consistent " true ;" name hname
  have hterm : Term.ofSource " true ;" = .ok (.symbol "true") :=
    Term.ofSource_eq_ok_iff.mpr (by decide +kernel)
  have hrun : (Program.run 2 "x y").outcome =
      .error (.runtime (.unboundName "x")) := by
    have hterms : Term.allOfSource "x y" =
        .ok [.symbol "x", .symbol "y"] :=
      Term.allOfSource_eq_ok_iff.mpr (by decide +kernel)
    have hexprs : Program.exprs "x y" = .ok [.ident "x", .ident "y"] := by
      rw [Program.exprs, hterms]
      with_unfolding_all rfl
    rw [Program.run_of_exprs hexprs]
    rfl
  refine ⟨hname, by decide +kernel, (hexpr 2 ?_).1, ?_, (hfile 2 ?_).1, hterm,
    hsame _ hterm 2, by decide +kernel⟩
  · have h : (Program.interpret 2 "x y").outcome =
        .error (.illFormed (.trailingInput ⟨1, 3⟩)) := by
      decide +kernel
    rw [h]
    nofun
  · rw [decode_toUTF8]
    decide +kernel
  · rw [hrun]
    nofun

end Shell

end BraceLisp
