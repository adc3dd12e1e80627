import BraceLisp.Proofs.LexicalGrammar
import BraceLisp.Proofs.Sequencing
import BraceLisp.Proofs.Translation
import Mathlib.Data.List.Count

/-!
# Programs one behind another

A source that can be read ends outside of strings and groups. A line feed behind
it ends whatever word or comment it ends with, and begins neither: so the tokens
of two sources with a line feed between them are those of the first and then
those of the second, further down (`Tokens.ofSource_append`). The terms are read
accordingly, and the expressions are parsed one by one.

Evaluation hands nothing on but the last value, and every expression begins in
the top-level environment. So a program behind one that returned a value ends as
it would by itself; only if it has no expressions, the value is that of the
program before.
-/

namespace BraceLisp

/-! ## The seam -/

/-- The text is empty or begins with a line feed, which ends every word and
every comment. -/
def StartsLine (text : List Char) : Prop := ∀ c ∈ text.head?, c = '\n'

theorem StartsLine.stops {text : List Char} (h : StartsLine text) :
    Stops (fun c => !Cursor.isDelimiter c) text := by
  intro c hc
  rw [h c hc]
  decide

theorem StartsLine.append {s t : List Char} (hs : StartsLine s)
    (ht : StartsLine t) : StartsLine (s ++ t) := by
  cases s with
  | nil => exact ht
  | cons c s => exact hs

theorem Stops.append {q : Char → Bool} {s t : List Char} (hs : Stops q s)
    (ht : Stops q t) : Stops q (s ++ t) := by
  cases s with
  | nil => exact ht
  | cons c s => exact hs

theorem Separator.append {rest rest' w : List Char} (h : Separator rest w)
    (hrest' : StartsLine rest') : Separator (rest ++ rest') w := by
  induction h with
  | nil => exact .nil
  | blank hc _ ih => exact .blank hc ih
  | comment hbody hend _ ih =>
      refine .comment hbody ?_ ih
      rw [← List.append_assoc]
      exact StartsLine.append hend hrest'

namespace Cursor

/-- A token that is taken is taken in front of another line, too. -/
theorem next_append {c c' : Cursor} {t : Token} (h : c.next = .token t c')
    {rest : List Char} (hrest : StartsLine rest) :
    next ⟨c.position, c.rest ++ rest⟩ =
      .token t ⟨c'.position, c'.rest ++ rest⟩ := by
  obtain ⟨w, text, hc, hw, hl, hstops, ht, hc'⟩ := next_eq_token_iff.mp h
  refine next_eq_token_iff.mpr ⟨w, text, ?_, ?_, hl, ?_, ht, hc'⟩
  · simp only [hc, List.append_assoc]
  · rw [← List.append_assoc]
    exact hw.append hrest
  · exact fun hword => (hstops hword).append hrest.stops

/-- The tokens of a text come before those of the lines behind it. -/
theorem tokensFrom_append {c : Cursor} {reversed : List Token} {ts : Tokens}
    (h : c.tokensFrom reversed = .ok ts) {rest : List Char}
    (hrest : StartsLine rest) :
    tokensFrom reversed ⟨c.position, c.rest ++ rest⟩ =
      tokensFrom ts.tokens.reverse ⟨ts.finish, rest⟩ := by
  fun_induction tokensFrom reversed c with
  | case1 reversed c t c' hnext _ ih =>
      rw [tokensFrom_of_next (next_append hnext hrest), ih h]
  | case2 => cases h
  | case3 reversed c last hnext =>
      obtain ⟨hw, rfl⟩ := next_eq_finished_iff.mp hnext
      cases h
      rw [List.reverse_reverse]
      exact tokensFrom_separator (hw.append hrest) c.position reversed

theorem finish_of_tokensFrom {c : Cursor} {reversed : List Token}
    {ts : Tokens} (h : c.tokensFrom reversed = .ok ts) :
    ts.finish = c.position.advanceAll c.rest := by
  fun_induction tokensFrom reversed c with
  | case1 reversed c t c' hnext _ ih =>
      obtain ⟨w, text, hc, -, -, -, ht, hc'⟩ := next_eq_token_iff.mp hnext
      rw [ih h, hc, hc', ht, Position.advanceAll_append,
        Position.advanceAll_append]
  | case2 => cases h
  | case3 reversed c last hnext =>
      obtain ⟨-, rfl⟩ := next_eq_finished_iff.mp hnext
      cases h
      rfl

/-- The tokens already taken are put in front of those that are left. -/
theorem tokensFrom_behind (before reversed : List Token) (c : Cursor) :
    c.tokensFrom (reversed ++ before) = (c.tokensFrom reversed).map fun ts =>
      ⟨before.reverse ++ ts.tokens, ts.finish⟩ := by
  fun_induction tokensFrom reversed c with
  | case1 reversed c t c' hnext _ ih =>
      rw [tokensFrom_of_next hnext, ← ih, List.cons_append]
  | case2 reversed c e c' hnext =>
      rw [tokensFrom_eq, hnext]
      rfl
  | case3 reversed c last hnext =>
      rw [tokensFrom_eq, hnext]
      dsimp only
      rw [List.reverse_append]
      rfl

end Cursor

theorem Position.line_advanceAll (p : Position) (text : List Char) :
    (p.advanceAll text).line = p.line + text.count '\n' := by
  induction text generalizing p with
  | nil => rfl
  | cons c text ih =>
      rw [advanceAll_cons, ih, advance]
      by_cases hc : c = '\n'
      · rw [if_pos hc, hc, List.count_cons_self, Nat.add_right_comm]
        rfl
      · rw [if_neg hc, List.count_cons_of_ne hc]

/-- How many lines down a program begins that stands behind the source and a
line feed. -/
def Program.lines (source : String) : Nat := 1 + source.toList.count '\n'

theorem Position.advanceAll_start_advance (text : List Char) :
    (start.advanceAll text).advance '\n' =
      start.down (1 + text.count '\n') := by
  rw [advance, if_pos rfl, line_advanceAll, down, Nat.add_right_comm,
    ← Nat.add_assoc]
  rfl

/-- Behind a source that has tokens come those of the next line. -/
theorem Tokens.ofSource_append {p₁ p₂ : String} {ts : Tokens}
    (h : ofSource p₁ = .ok ts) :
    ofSource (p₁ ++ "\n" ++ p₂) =
      (((ofSource p₂).map (moved (.down (Program.lines p₁)))).mapError
        (SyntaxError.moved (.down (Program.lines p₁)))).map fun us =>
          ⟨ts.tokens ++ us.tokens, us.finish⟩ := by
  have htext : (p₁ ++ "\n" ++ p₂).toList =
      p₁.toList ++ '\n' :: p₂.toList := by
    simp
  have hblank : Separator p₂.toList ['\n'] := .blank (by decide) .nil
  have hfinish : ts.finish.advance '\n' =
      Position.start.down (Program.lines p₁) := by
    rw [Cursor.finish_of_tokensFrom h]
    exact Position.advanceAll_start_advance p₁.toList
  have hmoved := Cursor.tokensFrom_moved
    (.before p₂.toList (Position.carries_down (Program.lines p₁) .start)) []
  calc ofSource (p₁ ++ "\n" ++ p₂)
      = Cursor.tokensFrom [] ⟨.start, p₁.toList ++ '\n' :: p₂.toList⟩ := by
        rw [ofSource, Cursor.start, htext]
    _ = Cursor.tokensFrom ts.tokens.reverse
          ⟨ts.finish, '\n' :: p₂.toList⟩ :=
        Cursor.tokensFrom_append h (by rintro c ⟨⟩; rfl)
    _ = Cursor.tokensFrom ts.tokens.reverse
          ⟨ts.finish.advance '\n', p₂.toList⟩ :=
        Cursor.tokensFrom_separator hblank ts.finish _
    _ = _ := by
        rw [hfinish, ← List.nil_append ts.tokens.reverse,
          Cursor.tokensFrom_behind, List.reverse_reverse]
        exact congrArg _ hmoved

/-! ## Reading -/

namespace Term

theorem next_append {tokens rest : List Token} {t : Term}
    (h : next tokens = (.ok t, rest)) (more : List Token) :
    next (tokens ++ more) = (.ok t, rest ++ more) := by
  obtain ⟨used, rfl, ht⟩ := flatten_of_next h
  rw [List.append_assoc, next_flatten ht.symm]

theorem allOfTokensFrom_append {reversed ts : List Term} {tokens : List Token}
    (h : allOfTokensFrom reversed tokens = .ok ts) (more : List Token) :
    allOfTokensFrom reversed (tokens ++ more) =
      allOfTokensFrom ts.reverse more := by
  fun_induction allOfTokensFrom reversed tokens with
  | case1 reversed =>
      cases h
      rw [List.reverse_reverse, List.nil_append]
  | case2 => cases h
  | case3 reversed token tokens t rest hnext _ ih =>
      rw [← ih h]
      exact allOfTokensFrom_of_next (List.cons_ne_nil _ _)
        (next_append hnext more) reversed

theorem allOfTokensFrom_behind (before reversed : List Term)
    (tokens : List Token) :
    allOfTokensFrom (reversed ++ before) tokens =
      (allOfTokensFrom reversed tokens).map (before.reverse ++ ·) := by
  fun_induction allOfTokensFrom reversed tokens with
  | case1 reversed =>
      rw [allOfTokensFrom, List.reverse_append]
      rfl
  | case2 reversed token tokens e rest hnext =>
      exact allOfTokensFrom_of_fault (List.cons_ne_nil _ _) hnext _
  | case3 reversed token tokens t rest hnext _ ih =>
      rw [allOfTokensFrom_of_next (List.cons_ne_nil _ _) hnext, ← ih,
        List.cons_append]

/-- Behind a source that can be read come the terms of the next line. -/
theorem allOfSource_append {p₁ p₂ : String} {ts : List Term}
    (h : allOfSource p₁ = .ok ts) :
    allOfSource (p₁ ++ "\n" ++ p₂) = ((allOfSource p₂).mapError
      (SyntaxError.moved (.down (Program.lines p₁)))).map (ts ++ ·) := by
  unfold allOfSource at h ⊢
  cases h₁ : Tokens.ofSource p₁ with
  | error e => rw [h₁] at h; cases h
  | ok us =>
      rw [h₁] at h
      rw [Tokens.ofSource_append h₁]
      cases Tokens.ofSource p₂ with
      | error e => rfl
      | ok vs =>
          show allOfTokensFrom [] (us.tokens ++ vs.tokens.map _) = _
          rw [allOfTokensFrom_append h, ← List.nil_append ts.reverse,
            allOfTokensFrom_behind, allOfTokensFrom_moved, List.reverse_reverse]

end Term

/-! ## Parsing -/

theorem Expr.ofTerms_append {ts us : List Term} {es : List (Expr String)}
    (h : ofTerms ts = .ok es) :
    ofTerms (ts ++ us) = (ofTerms us).map (es ++ ·) := by
  induction ts generalizing es with
  | nil =>
      rw [ofTerms_nil] at h
      cases h
      rw [List.nil_append]
      cases ofTerms us <;> rfl
  | cons t ts ih =>
      rw [ofTerms_cons] at h
      obtain ⟨e, he, h⟩ := bind_eq_ok_iff.mp h
      obtain ⟨es, hes, h⟩ := bind_eq_ok_iff.mp h
      cases h
      rw [List.cons_append, ofTerms_cons, he, ih hes]
      cases ofTerms us <;> rfl

namespace Program

/-- Behind a source that parses come the expressions of the next line. -/
theorem exprs_append {p₁ p₂ : String} {es : List (Expr String)}
    (h : exprs p₁ = .ok es) :
    exprs (p₁ ++ "\n" ++ p₂) = ((exprs p₂).mapError
      (SyntaxError.moved (.down (lines p₁)))).map (es ++ ·) := by
  obtain ⟨ts, hts, hes⟩ := bind_eq_ok_iff.mp h
  rw [exprs, exprs, Term.allOfSource_append hts]
  cases Term.allOfSource p₂ with
  | error e => rfl
  | ok us =>
      show Expr.ofTerms (ts ++ us) = ((Expr.ofTerms us).mapError _).map _
      rw [Expr.ofTerms_append hes]
      cases hus : Expr.ofTerms us with
      | ok fs => rfl
      | error e =>
          -- The parser's faults bear no place, so they are where they were.
          obtain ⟨t, -, ht⟩ := Expr.ofTerms_eq_error hus
          have hplace := Expr.place?_of_ofTerm ht
          show Except.error e = Except.error (e.moved _)
          rw [SyntaxError.moved_eq_self hplace]

/-! ## Running -/

/-- How a program ends that ends like this by itself, if it stands so many lines
down behind a program with the given last value. -/
def endBehind (lines : Nat) (last : Option (Value String)) :
    Except Error (Option (Value String)) →
      Except Error (Option (Value String))
  | .ok v => .ok (v.or last)
  | .error (.illFormed e) => .error (.illFormed (e.moved (.down lines)))
  | .error (.runtime e) => .error (.runtime e)

/-- The evaluations of expressions and of those behind them that end, when the
first are done and their last value is `v`. -/
theorem evalLast_append_ends {es : List (Expr String)}
    {v : Option (Value String)} {n₁ : Nat}
    (h : Run.Ends (fun depth => evalLast depth none es) n₁ (.ok v))
    (fs : List (Expr String)) (n₂ n : Nat) :
    ((∃ s, Run.Ends (fun depth => evalLast depth none fs) n₂ s) ↔
      ∃ s, Run.Ends (fun depth => evalLast depth none (es ++ fs)) n s) ∧
      ∀ s s', Run.Ends (fun depth => evalLast depth none fs) n₂ s →
        Run.Ends (fun depth => evalLast depth none (es ++ fs)) n s' →
        EndsAlike (fun o o' => Option.Rel Value.Alike (o.or v) o') s s' := by
  have hself : ∀ depth, (evalLast depth none es).Matches
      (Option.Rel Value.Alike) (evalLast depth none es) :=
    fun depth => evalLast_matches (fun _ _ => .some) .none es
  obtain ⟨spare, hspare⟩ := (evalLast_deepens none es).returns hself h
  have hmatches : ∀ depth, (evalLast (depth + spare) none fs).Matches
      (fun o o' => Option.Rel Value.Alike (o.or v) o')
      (evalLast (depth + spare) none (es ++ fs)) := by
    intro depth
    rw [evalLast_append]
    refine (hspare depth).bind_matches fun last hlast => ?_
    -- Without an expression behind, the first value is the last one.
    refine evalLast_matches (fun _ _ hw => .some hw) ?_ fs
    rw [Option.none_or]
    exact hlast
  have hfs := evalLast_deepens none fs
  have happend := evalLast_deepens none (es ++ fs)
  have halike := Run.ends_alike_of_matches (hfs.add spare) hmatches n₂ n
  simp only [hfs.ends_add_iff, happend.ends_add_iff] at halike
  exact halike

theorem exprs_of_runEnds {source : String} {next : Nat}
    {v : Option (Value String)} (h : RunEnds source next (.ok v)) :
    ∃ es, exprs source = .ok es := by
  cases hes : exprs source with
  | ok es => exact ⟨es, rfl⟩
  | error e => cases (runEnds_of_fault hes).mp h

/-- A program behind one that returned a value ends as by itself. -/
theorem runEnds_behind {p₁ p₂ : String} {v₁ : Option (Value String)}
    {n₁ : Nat} (h : RunEnds p₁ n₁ (.ok v₁)) (n₂ n : Nat) :
    ((∃ r, RunEnds p₂ n₂ r) ↔ ∃ r, RunEnds (p₁ ++ "\n" ++ p₂) n r) ∧
      ∀ r r', RunEnds p₂ n₂ r → RunEnds (p₁ ++ "\n" ++ p₂) n r' →
        EndsAlike (Option.Rel Value.Alike) (endBehind (lines p₁) v₁ r) r' := by
  obtain ⟨es, hes⟩ := exprs_of_runEnds h
  have hexprs : exprs (p₁ ++ "\n" ++ p₂) = _ := exprs_append hes
  cases hfs : exprs p₂ with
  | error e =>
      rw [hfs] at hexprs
      refine ⟨⟨fun _ => ?_, fun _ => ?_⟩, fun r r' hr hr' => ?_⟩
      · exact ⟨_, (runEnds_of_fault hexprs).mpr rfl⟩
      · exact ⟨_, (runEnds_of_fault hfs).mpr rfl⟩
      · rw [(runEnds_of_fault hfs).mp hr, (runEnds_of_fault hexprs).mp hr']
        exact .error _
  | ok fs =>
      rw [hfs] at hexprs
      obtain ⟨s, hs, hv₁⟩ := (runEnds_of_exprs hes).mp h
      cases s with
      | error e => cases hv₁
      | ok v =>
          cases hv₁
          obtain ⟨hends, halike⟩ := evalLast_append_ends hs fs n₂ n
          rw [exists_runEnds_of_exprs hfs, exists_runEnds_of_exprs hexprs]
          refine ⟨hends, fun r r' hr hr' => ?_⟩
          obtain ⟨s, hs, rfl⟩ := (runEnds_of_exprs hfs).mp hr
          obtain ⟨s', hs', rfl⟩ := (runEnds_of_exprs hexprs).mp hr'
          cases halike s s' hs hs' with
          | ok h => exact .ok h
          | error e => exact .error (Error.runtime e)

/-- Two sources with a line feed between them are read as the terms of the first
and then those of the second, whose faults are so many lines further down. If
the first runs and returns a value, both together run as the second does by
itself, up to the identities of closures; only where that would return nothing,
they return the value of the first. -/
theorem run_behind_a_value (p₁ p₂ : String) :
    (∀ ts₁, Term.allOfSource p₁ = .ok ts₁ →
      (∀ ts₂, Term.allOfSource p₂ = .ok ts₂ →
        Term.allOfSource (p₁ ++ "\n" ++ p₂) = .ok (ts₁ ++ ts₂)) ∧
      ∀ e, Term.allOfSource p₂ = .error e →
        Term.allOfSource (p₁ ++ "\n" ++ p₂) =
          .error (e.moved (.down (lines p₁)))) ∧
    ∀ v₁ n₁ n₂ n, RunEnds p₁ n₁ (.ok v₁) →
      ((∃ r, RunEnds p₂ n₂ r) ↔ ∃ r, RunEnds (p₁ ++ "\n" ++ p₂) n r) ∧
        ∀ r r', RunEnds p₂ n₂ r → RunEnds (p₁ ++ "\n" ++ p₂) n r' →
          EndsAlike (Option.Rel Value.Alike)
            (endBehind (lines p₁) v₁ r) r' := by
  refine ⟨fun ts₁ h₁ => ⟨fun ts₂ h₂ => ?_, fun e h₂ => ?_⟩, ?_⟩
  · rw [Term.allOfSource_append h₁, h₂]
    rfl
  · rw [Term.allOfSource_append h₁, h₂]
    rfl
  · exact fun v₁ n₁ n₂ n h => runEnds_behind h n₂ n

/-- A procedure with a comment behind it. The comment ends with its line: a
fault below is seen, and moved down by the line; and where a comment is all that
comes below, the procedure is the value. -/
theorem procedure_before_comment :
    let p₁ := "\x7blam \x7bx\x7d x\x7d;a"
    let t : Term := .list [.symbol "lam", .list [.symbol "x"], .symbol "x"]
    let v : Value String := .closure 0 ["x"] (.ident "x") .top
    (Term.allOfSource p₁ = .ok [t] ∧
      Term.allOfSource (p₁ ++ "\n" ++ "\n\"\\q") =
        .error (.unknownEscape 'q' ⟨3, 2⟩)) ∧
      RunEnds p₁ 0 (.ok (some v)) ∧ RunEnds ";b" 0 (.ok none) ∧
      ∀ r, RunEnds (p₁ ++ "\n" ++ ";b") 3 r →
        EndsAlike (Option.Rel Value.Alike) (.ok (some v)) r := by
  intro p₁ t v
  have h₁ : Term.allOfSource p₁ = .ok [t] :=
    Term.allOfSource_eq_ok_iff.mpr (by decide +kernel)
  have h₂ : Term.allOfSource "\n\"\\q" =
      .error (.unknownEscape 'q' ⟨2, 2⟩) := by
    have htokens : Tokens.ofSource "\n\"\\q" =
        .error (.unknownEscape 'q' ⟨2, 2⟩) := by
      decide +kernel
    rw [Term.allOfSource, htokens]
  have h₃ : Term.allOfSource ";b" = .ok [] :=
    Term.allOfSource_eq_ok_iff.mpr (by decide +kernel)
  have hexprs₁ : exprs p₁ = .ok [.lam ["x"] (.ident "x")] := by
    rw [exprs, h₁]
    with_unfolding_all rfl
  have hexprs₃ : exprs ";b" = .ok [] := by
    rw [exprs, h₃]
    with_unfolding_all rfl
  have hv : RunEnds p₁ 0 (.ok (some v)) :=
    (runEnds_of_exprs hexprs₁).mpr ⟨_, ⟨1, rfl⟩, rfl⟩
  have hnone : RunEnds ";b" 0 (.ok none) :=
    (runEnds_of_exprs hexprs₃).mpr ⟨_, ⟨0, rfl⟩, rfl⟩
  obtain ⟨hread, -⟩ := run_behind_a_value p₁ "\n\"\\q"
  obtain ⟨-, hrun⟩ := run_behind_a_value p₁ ";b"
  have hmoved := (hread _ h₁).2 _ h₂
  have hlines : lines p₁ = 1 := by decide +kernel
  rw [hlines] at hmoved
  refine ⟨⟨h₁, hmoved⟩, hv, hnone, fun r hr => ?_⟩
  exact (hrun (some v) 0 0 3 hv).2 _ r hnone hr

end Program

end BraceLisp
