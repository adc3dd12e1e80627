import BraceLisp.Proofs.Scanning

/-!
# Lines and columns

The lexer never counts: it moves a place on, character by character. Counting is
the second side here. `Position.behind` is the place behind a text, one line for
each line feed in it and one column for each character since the last, and it is
where the lexer stands behind the text that it has used up, after any number of
calls (`Position.start_advanceAll`).

So every place that a call reports can be read off the source, and says where
the thing reported begins: the token, the opening quote of a string that does not
end, the backslash of an escape, the end of the source. A token is not empty, so
the next one is reported at a later place.
-/

namespace BraceLisp

namespace Position

/-- The place behind a text, by counting. -/
def behind (text : List Char) : Position :=
  ⟨1 + text.count '\n', 1 + (text.reverse.takeWhile (· != '\n')).length⟩

theorem behind_snoc (text : List Char) (c : Char) :
    behind (text ++ [c]) = (behind text).advance c := by
  by_cases hc : c = '\n'
  · subst hc
    simp [behind, advance, Nat.add_assoc]
  · simp [behind, advance, hc, Nat.add_comm]

/-- Moving on character by character comes to the same as counting. -/
theorem start_advanceAll (text : List Char) :
    start.advanceAll text = behind text := by
  induction text using List.reverseRecOn with
  | nil => rfl
  | append_singleton text c ih =>
      rw [advanceAll_snoc, ih, behind_snoc]

theorem behind_advanceAll (s t : List Char) :
    (behind s).advanceAll t = behind (s ++ t) := by
  rw [← start_advanceAll, ← start_advanceAll, advanceAll_append]

/-- On an earlier line, or on the same line and further left. -/
def Before (p q : Position) : Prop :=
  p.line < q.line ∨ p.line = q.line ∧ p.column < q.column

theorem Before.trans {p q r : Position} (hpq : p.Before q)
    (hqr : q.Before r) : p.Before r := by
  simp only [Before] at *
  omega

theorem before_advance (p : Position) (c : Char) : p.Before (p.advance c) := by
  simp only [Before, advance]
  split
  · exact .inl (Nat.lt_succ_self _)
  · exact .inr ⟨rfl, Nat.lt_succ_self _⟩

theorem before_advanceAll (p : Position) {text : List Char}
    (h : text ≠ []) : p.Before (p.advanceAll text) := by
  induction text generalizing p with
  | nil => exact absurd rfl h
  | cons c text ih =>
      cases text with
      | nil => exact before_advance p c
      | cons d text =>
          exact (before_advance p c).trans (ih _ (List.cons_ne_nil d text))

end Position

namespace Cursor

/-- What the lexer has used up of a source tells where it stands. -/
theorem position_onward (source : String) (n : Nat) :
    ∃ before, source.toList = before ++ ((start source).onward n).rest ∧
      ((start source).onward n).position = .behind before := by
  obtain ⟨before, hsource, hplace⟩ := precedes_onward (start source) n
  exact ⟨before, hsource, by rw [hplace, ← Position.start_advanceAll]; rfl⟩

/-- Of two tokens the one taken first is reported at the earlier place. -/
theorem before_of_tokens {c c' d d' : Cursor} {t u : Token}
    (ht : c.next = .token t c') (hcd : c'.Precedes d)
    (hu : d.next = .token u d') : t.position.Before u.position := by
  obtain ⟨-, text, -, -, hl, -, -, hc'⟩ := next_eq_token_iff.mp ht
  obtain ⟨used, -, hd⟩ := hcd
  obtain ⟨w, -, -, -, -, -, hplace, -⟩ := next_eq_token_iff.mp hu
  have hlater : u.position = t.position.advanceAll (text ++ (used ++ w)) := by
    rw [hplace, hd, hc', Position.advanceAll_append, Position.advanceAll_append]
  rw [hlater]
  refine t.position.before_advanceAll fun hnil => ?_
  exact hl.ne_nil (List.append_eq_nil_iff.mp hnil).1

/-- After any number of calls, failed ones included, the lexer stands at the
place that counting gives for the text used up. A token is reported at the place
where its text begins, behind blanks and comments, the end at the place behind
all of the source, a string that the source ends in where its quote stands, and
an escape that stands for no character where its backslash stands, together with
the character. Tokens of later calls are reported at later places. -/
theorem places_true_to_source (source : String) (n : Nat) {c : Cursor}
    (hc : (start source).onward n = c) :
    ∃ before, source.toList = before ++ c.rest ∧
      c.position = .behind before ∧
      (∀ t c', c.next = .token t c' → ∃ w text,
        c.rest = w ++ (text ++ c'.rest) ∧ Separator (text ++ c'.rest) w ∧
          t.lexeme.Spelled text ∧ t.position = .behind (before ++ w)) ∧
      (∀ last, c.next = .finished last →
        last.position = .behind source.toList) ∧
      (∀ e c', c.next = .failed e c' →
        (∃ w body contents tail, c.rest = w ++ '"' :: (body ++ tail) ∧
          Separator ('"' :: (body ++ tail)) w ∧ Text.Quoted body contents ∧
          (tail = [] ∨ tail = ['\\']) ∧
          e = .unterminatedString (.behind (before ++ w))) ∨
        ∃ w body contents x,
          c.rest = w ++ '"' :: (body ++ '\\' :: x :: c'.rest) ∧
          Separator ('"' :: (body ++ '\\' :: x :: c'.rest)) w ∧
          Text.Quoted body contents ∧ Text.unescape? x = none ∧
          e = .unknownEscape x (.behind (before ++ (w ++ '"' :: body)))) ∧
      ∀ m t c' u d, n < m → c.next = .token t c' →
        ((start source).onward m).next = .token u d →
        t.position.Before u.position := by
  subst hc
  obtain ⟨before, hsource, hplace⟩ := position_onward source n
  refine ⟨before, hsource, hplace, ?token, ?finished, ?failed, ?later⟩
  case token =>
    intro t c' h
    obtain ⟨w, text, hrest, hw, hl, -, ht, -⟩ := next_eq_token_iff.mp h
    exact ⟨w, text, hrest, hw, hl, by
      rw [ht, hplace, Position.behind_advanceAll]⟩
  case finished =>
    intro last h
    obtain ⟨-, rfl⟩ := next_eq_finished_iff.mp h
    dsimp only
    rw [hplace, Position.behind_advanceAll, hsource]
  case failed =>
    intro e c' h
    rcases next_eq_failed h with
      ⟨w, body, contents, tail, hrest, hw, hbody, htail, -, rfl⟩ |
      ⟨w, body, contents, x, hrest, hw, hbody, hx, rfl⟩
    · refine .inl ⟨w, body, contents, tail, hrest, hw, hbody, htail, ?_⟩
      rw [hplace, Position.behind_advanceAll]
    · refine .inr ⟨w, body, contents, x, hrest, hw, hbody, hx, ?_⟩
      rw [hplace, Position.behind_advanceAll]
  case later =>
    intro m t c' u d hlt ht hu
    obtain ⟨k, rfl⟩ := Nat.exists_eq_add_of_lt hlt
    refine before_of_tokens ht ?_ hu
    have hc' : (start source).onward (n + 1) = c' := by
      rw [onward, ht]
      rfl
    rw [Nat.add_right_comm, onward_add, hc']
    exact precedes_onward c' k

/-- A comment, and a string with a line feed, a wide character and an escape
that there is none of: behind that the closing quote opens a string of its own,
which a word follows on the next line. -/
theorem places_behind_broken_string :
    let source := "; é\n \"π\n\\q\"x\n\"y"
    let rest := "\"x\n\"y".toList
    ((start source).onward 0).next =
        .failed (.unknownEscape 'q' ⟨3, 1⟩) ⟨⟨3, 3⟩, rest⟩ ∧
      ((start source).onward 1).next =
        .token ⟨.atom (.string "x\n"), ⟨3, 3⟩⟩ ⟨⟨4, 2⟩, ['y']⟩ ∧
      ((start source).onward 2).next =
        .token ⟨.atom (.symbol "y"), ⟨4, 2⟩⟩ ⟨⟨4, 3⟩, []⟩ ∧
      (∃ before, source.toList = before ++ '\\' :: 'q' :: rest ∧
        (⟨3, 1⟩ : Position) = .behind before) ∧
      (∃ before text, source.toList = before ++ (text ++ ['y']) ∧
        Lexeme.Spelled (.atom (.string "x\n")) text ∧
        (⟨3, 3⟩ : Position) = .behind before) ∧
      Position.Before ⟨3, 3⟩ ⟨4, 2⟩ := by
  intro source rest
  have h₀ : ((start source).onward 0).next =
      .failed (.unknownEscape 'q' ⟨3, 1⟩) ⟨⟨3, 3⟩, rest⟩ := by
    decide +kernel
  have h₁ : ((start source).onward 1).next =
      .token ⟨.atom (.string "x\n"), ⟨3, 3⟩⟩ ⟨⟨4, 2⟩, ['y']⟩ := by
    decide +kernel
  have h₂ : ((start source).onward 2).next =
      .token ⟨.atom (.symbol "y"), ⟨4, 2⟩⟩ ⟨⟨4, 3⟩, []⟩ := by
    decide +kernel
  obtain ⟨before, hsource, -, -, -, hfailed, -⟩ :=
    places_true_to_source source 0 rfl
  obtain ⟨before', hsource', -, htoken, -, -, hlater⟩ :=
    places_true_to_source source 1 rfl
  refine ⟨h₀, h₁, h₂, ?escape, ?string, hlater 2 _ _ _ _ (by decide) h₁ h₂⟩
  case escape =>
    rcases hfailed _ _ h₀ with ⟨_, _, _, _, -, -, -, -, he⟩ |
      ⟨w, body, _, x, hrest, -, -, -, he⟩
    · cases he
    · injection he with hx hplace
      subst hx
      refine ⟨_, ?_, hplace⟩
      rw [hsource, hrest]
      simp
  case string =>
    obtain ⟨w, text, hrest, -, htext, hplace⟩ := htoken _ _ h₁
    refine ⟨_, text, ?_, htext, hplace⟩
    rw [hsource', hrest, List.append_assoc]

end Cursor

end BraceLisp
