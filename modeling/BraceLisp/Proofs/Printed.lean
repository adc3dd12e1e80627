import BraceLisp.Proofs.Bindings
import BraceLisp.Proofs.Reports
import BraceLisp.Proofs.RoundTrip

/-!
# What is printed, as a program

A value is shown as a text, and a text is a program. Finite numbers, strings and
booleans have a notation: their texts are read as themselves, and evaluate to
the very value (`Value.text_evaluates`). What has no notation is shown as a word
that is a name, to the reader, and one that is not bound at the top level
(`Value.text_is_unbound`). So no text that a program comes to is taken for
another value.
-/

namespace BraceLisp

theorem Term.text_atom (a : Atom) : (atom a).text = String.ofList a.chars := by
  rw [text, render, List.append_nil]

namespace Value

/-- The value can be written in a program. -/
def HasNotation : Value String → Prop
  | number x => x.isFinite
  | string _ | boolean _ => True
  | closure .. | primitive _ => False

/-! ## Texts as atoms -/

/-- The atom that is shown for a value. -/
def atom : Value String → Atom
  | number x => .number x
  | string s => .string s
  | v => .symbol v.text

theorem text_eq (v : Value String) : v.text = (Term.atom v.atom).text := by
  rw [Term.text_atom]
  cases v with
  | number | string => rfl
  | boolean | closure | primitive => exact String.ofList_toList.symm

theorem legible_atom (v : Value String) : v.atom.Legible := by
  have hword : ∀ name ∈ ["true", "false", "#<procedure>", "#<primop>"],
      Lexable name.toList := by
    simp only [List.forall_mem_cons, List.not_mem_nil, false_implies,
      implies_true, and_true]
    refine ⟨?_, ?_, ?_, ?_⟩ <;>
      exact (bareWord_of_all (by decide) (by decide) (by decide)).lexable
        (by decide)
  cases v with
  | number | string => trivial
  | boolean b => cases b <;> exact hword _ (by simp [text])
  | closure | primitive => exact hword _ (by simp [text])

/-- The text of a value is read as its atom; of the numbers, those that are not
finite are read as names. -/
theorem ofSource_text (v : Value String) :
    Term.ofSource v.text = .ok (.atom v.atom.reread) := by
  rw [text_eq, Term.ofSource_text (Term.all_atom.mpr v.legible_atom),
    Term.reread]

/-! ## Texts as programs -/

/-- What has a notation is written as a program for itself. -/
theorem text_evaluates {v : Value String} (h : v.HasNotation) :
    ∃ e, Expr.ofSource v.text = .ok e ∧
      ∀ depth next, e.eval (depth + 1) .top next = .value (v, next) := by
  rw [Expr.ofSource, ofSource_text]
  cases v with
  | number x =>
      have hfinite : x.isFinite = true := h
      rw [atom, Atom.reread, if_pos hfinite]
      exact ⟨.number x, Expr.ofTerm_number x, fun _ _ => rfl⟩
  | string s => exact ⟨.string s, Expr.ofTerm_string s, fun _ _ => rfl⟩
  | boolean b =>
      refine ⟨.ident (boolean b : Value String).text, ?_, fun depth next => ?_⟩
      · cases b <;> exact Expr.ofTerm_symbol _
      · cases b <;> rfl
  | closure | primitive => exact h.elim

/-- The words that are shown for what has no notation. -/
def placeholders : List String :=
  ["NaN", "inf", "-inf", "#<procedure>", "#<primop>"]

theorem mem_placeholders {v : Value String} (h : ¬v.HasNotation) :
    v.text ∈ placeholders ∧ v.atom.reread = .symbol v.text := by
  cases v with
  | number x =>
      have hfinite : ¬x.isFinite = true := h
      refine ⟨?_, if_neg hfinite⟩
      have hchars :=
        Number.chars_of_not_isFinite (Bool.eq_false_iff.mpr hfinite)
      simp only [List.mem_cons, List.not_mem_nil, or_false] at hchars
      rw [text, Number.text]
      rcases hchars with hchars | hchars | hchars
      all_goals
        rw [hchars]
        decide
  | string | boolean => exact absurd trivial h
  | closure | primitive => exact ⟨by simp [placeholders, text], rfl⟩

theorem not_bound_of_mem_placeholders :
    ∀ name ∈ placeholders,
      ¬Reserved name ∧ Env.top.lookup name = .error (.unboundName name) := by
  simp only [placeholders, List.forall_mem_cons, List.not_mem_nil,
    false_implies, implies_true, and_true]
  refine ⟨⟨by decide, rfl⟩, ⟨by decide, rfl⟩, ⟨by decide, rfl⟩,
    ⟨by decide, rfl⟩, ⟨by decide, rfl⟩⟩

/-- What has no notation is written as a name that nothing is bound to at the
top level. -/
theorem text_is_unbound {v : Value String} (h : ¬v.HasNotation) :
    Expr.ofSource v.text = .ok (.ident v.text) ∧
      ∀ depth next, (Expr.ident v.text).eval (depth + 1) .top next =
        .error (.unboundName v.text) := by
  obtain ⟨hmem, hatom⟩ := mem_placeholders h
  obtain ⟨hname, hlookup⟩ := not_bound_of_mem_placeholders v.text hmem
  refine ⟨?_, fun depth next => ?_⟩
  · rw [Expr.ofSource, ofSource_text, hatom]
    exact (Expr.ofTerm_symbol v.text).trans (if_neg hname)
  · show Run.ofExcept (Env.top.lookup v.text) next = _
    rw [hlookup]
    rfl

end Value

namespace Program

theorem eval_text {v : Value String} (h : v.HasNotation) (depth next : Nat) :
    eval (depth + 1) v.text next = .value (v, next) := by
  obtain ⟨e, he, heval⟩ := Value.text_evaluates h
  rw [eval_of_expr he, Run.mapError, heval]

theorem eval_text_of_unwritten {v : Value String} (h : ¬v.HasNotation)
    (depth next : Nat) : eval (depth + 1) v.text next =
      .error (.runtime (.unboundName v.text)) := by
  obtain ⟨he, heval⟩ := Value.text_is_unbound h
  rw [eval_of_expr he, Run.mapError, heval]

/-- The text of a value is a program for no other. -/
theorem eq_of_ends_text {v w : Value String} {next : Nat}
    (h : Run.Ends (fun depth => eval depth v.text) next (.ok w)) : w = v := by
  by_cases hv : v.HasNotation
  · have hself : Run.Ends (fun depth => eval depth v.text) next (.ok v) :=
      ⟨1, congrArg Outcome.answer? (eval_text hv 0 next)⟩
    exact Except.ok.inj ((eval_deepens v.text).ends_unique h hself)
  · have hfails : Run.Ends (fun depth => eval depth v.text) next
        (.error (.runtime (.unboundName v.text))) :=
      ⟨1, congrArg Outcome.answer? (eval_text_of_unwritten hv 0 next)⟩
    cases (eval_deepens v.text).ends_unique h hfails

/-! ## The law -/

/-- What a program prints, if it prints anything, is the text of its value, of
which there is one. If this is a finite number, a string or a boolean, the text
is a program for the same value, and prints itself. If it is another number, a
procedure or an operator, the text is a name that is not bound, and fails as
such. So the text is a program for no other value. -/
theorem prints_its_value {source out : String} {next : Nat}
    (h : Run.Ends (fun depth => interpret depth source) next (.ok out)) :
    ∃ v : Value String,
      (∀ r, Run.Ends (fun depth => eval depth source) next r ↔ r = .ok v) ∧
      v.text = out ∧
      (v.HasNotation →
        (∃ e, Expr.ofSource out = .ok e ∧
          ∀ depth n, e.eval (depth + 1) .top n = .value (v, n)) ∧
        ∀ depth n, interpret (depth + 1) out n = .value (out, n)) ∧
      (¬v.HasNotation → ∀ depth n, interpret (depth + 1) out n =
        .error (.runtime (.unboundName out))) ∧
      ∀ w n, Run.Ends (fun depth => eval depth out) n (.ok w) → w = v := by
  obtain ⟨s, hs, hout⟩ := Run.ends_map_iff.mp h
  cases s with
  | error e => cases hout
  | ok v =>
      cases hout
      refine ⟨v, fun r => ⟨fun hr => ?_, fun hr => ?_⟩, rfl, fun hv => ⟨?_, ?_⟩,
        fun hv depth n => ?_, fun w n => eq_of_ends_text⟩
      · exact (eval_deepens source).ends_unique hr hs
      · rw [hr]
        exact hs
      · exact Value.text_evaluates hv
      · intro depth n
        show Run.bind (eval (depth + 1) v.text) _ n = _
        rw [Run.bind, eval_text hv]
        rfl
      · show Run.bind (eval (depth + 1) v.text) _ n = _
        rw [Run.bind, eval_text_of_unwritten hv]

/-- A string of a quote, a backslash and a line feed that is bound to the name
of a constant; and a procedure. -/
theorem prints_string_and_procedure :
    let string := "\"\\\"\\\\\\n;\""
    let source := "\x7b\x7blam \x7bf\x7d f\x7d " ++ string ++ "\x7d"
    Run.Ends (fun depth => interpret depth source) 0 (.ok string) ∧
      (∀ depth n, interpret (depth + 1) string n = .value (string, n)) ∧
      Run.Ends (fun depth => interpret depth "\x7blam \x7b\x7d 1\x7d") 0
        (.ok "#<procedure>") ∧
      ∀ depth n, interpret (depth + 1) "#<procedure>" n =
        .error (.runtime (.unboundName "#<procedure>")) := by
  intro string source
  have hstring : Run.Ends (fun depth => interpret depth source) 0
      (.ok string) := ⟨3, by decide +kernel⟩
  have hprocedure : Run.Ends
      (fun depth => interpret depth "\x7blam \x7b\x7d 1\x7d") 0
      (.ok "#<procedure>") := ⟨1, by decide +kernel⟩
  obtain ⟨v, -, -, hself, hunbound, -⟩ := prints_its_value hstring
  obtain ⟨w, -, -, hself', hunbound', -⟩ := prints_its_value hprocedure
  -- One evaluation of a text tells whether it is the notation of a value.
  have hv : v.HasNotation := by
    by_contra hv
    exact absurd (hunbound hv 0 0) (by decide +kernel)
  have hw : ¬w.HasNotation := fun hw =>
    absurd ((hself' hw).2 0 0) (by decide +kernel)
  exact ⟨hstring, (hself hv).2, hprocedure, hunbound' hw⟩

end Program

end BraceLisp
