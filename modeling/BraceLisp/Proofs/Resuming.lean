import BraceLisp.Proofs.LineColumn
import BraceLisp.Proofs.Stages

/-!
# Going on from anywhere

A lexer keeps nothing but what is left of the source and the place where that
begins. So after any number of calls, failed ones too, it does what a lexer that
begins with the rest of the source would do, at places that are told from where
the rest begins (`Position.within`): the two stand at places that answer to each
other, and calls keep them so (`Cursor.onward_carries`).

A call that does not reach the end takes a character that neither a blank nor a
comment begins with (`Cursor.progress`), and the end stays where it is. This is
why a source has tokens or a first fault after no more calls than it has
characters (`Cursor.Takes.length_le`).
-/

namespace BraceLisp

/-! ## Places told from an origin -/

namespace Position

/-- Where a place in a text is if the text begins at `origin`. Only its first
line has anything to the left of it. -/
def within (origin p : Position) : Position :=
  if p.line = 1 then ⟨origin.line, origin.column + p.column - 1⟩
  else ⟨origin.line + p.line - 1, p.column⟩

theorem within_advance (origin : Position) {p : Position} (hline : 1 ≤ p.line)
    (hcolumn : 1 ≤ p.column) (c : Char) :
    within origin (p.advance c) = (within origin p).advance c := by
  have hpos : p.line ≠ 0 := by omega
  by_cases hc : c = '\n' <;> by_cases hfirst : p.line = 1 <;>
    simp [within, advance, hc, hfirst, hpos] <;> omega

theorem carries_within (origin : Position) :
    Carries (within origin) start origin := by
  intro text
  induction text using List.reverseRecOn with
  | nil => rfl
  | append_singleton text c ih =>
      have hline : 1 ≤ (behind text).line := Nat.le_add_right 1 _
      have hcolumn : 1 ≤ (behind text).column := Nat.le_add_right 1 _
      rw [start_advanceAll] at ih
      rw [start_advanceAll, behind_snoc, within_advance origin hline hcolumn,
        ih, advanceAll_snoc]

end Position

variable {f : Position → Position}

def Cursor.moved (f : Position → Position) (c : Cursor) : Cursor :=
  ⟨f c.position, c.rest⟩

/-- A step with all its places moved. -/
def Step.moved (f : Position → Position) : Step → Step
  | token t c => token (t.moved f) (c.moved f)
  | failed e c => failed (e.moved f) (c.moved f)
  | finished c => finished (c.moved f)

theorem Cursor.Carries.eq_moved {c d : Cursor} (h : c.Carries f d) :
    d = c.moved f := by
  cases h with
  | before text h => rw [Cursor.moved, h.eq]

theorem Step.Carries.eq_moved {s s' : Step} (h : s.Carries f s') :
    s' = s.moved f := by
  cases h with
  | token hp h => rw [Step.moved, Token.moved, hp, h.eq_moved]
  | failed he h => rw [Step.moved, he, h.eq_moved]
  | finished h => rw [Step.moved, h.eq_moved]

theorem Step.Carries.cursor {s s' : Step} (h : s.Carries f s') :
    s.cursor.Carries f s'.cursor := by
  cases h with
  | token _ h | failed _ h | finished h => exact h

namespace Cursor

/-- Cursors that differ in their places alone do so behind any number of
calls. -/
theorem onward_carries {c d : Cursor} (h : c.Carries f d) (n : Nat) :
    (c.onward n).Carries f (d.onward n) := by
  induction n with
  | zero => exact h
  | succ n ih => exact (next_carries ih).cursor

/-- Calls from here on come to what they would if the source began here, at
places told from here. -/
theorem next_onward_eq (c : Cursor) (n : Nat) :
    (c.onward n).next =
      ((start (String.ofList c.rest)).onward n).next.moved
        (.within c.position) := by
  have hstart : (start (String.ofList c.rest)).Carries
      (.within c.position) c := by
    rw [start, String.toList_ofList]
    exact .before c.rest (Position.carries_within c.position)
  exact (next_carries (onward_carries hstart n)).eq_moved

end Cursor

/-! ## Progress -/

theorem Lexeme.Spelled.head {l : Lexeme} {d : Char} {text : List Char}
    (h : l.Spelled (d :: text)) : Text.isBlank d = false ∧ d ≠ ';' := by
  have hword : BareWord (d :: text) → Text.isBlank d = false ∧ d ≠ ';' := by
    intro h
    refine ⟨(h.not_delimiter d List.mem_cons_self).1, fun hd => ?_⟩
    exact h.not_comment (by rw [hd]; rfl)
  cases h with
  | openBrace | closeBrace | string => decide
  | number h => exact hword h
  | symbol h => exact hword h.toBareWord

namespace Cursor

/-- A call that does not reach the end goes on behind a character that is in no
separator. -/
theorem progress {c : Cursor} (h : ∀ last, c.next ≠ .finished last) :
    ∃ w d used, c.rest = w ++ d :: (used ++ c.next.cursor.rest) ∧
      Separator (d :: (used ++ c.next.cursor.rest)) w ∧
      Text.isBlank d = false ∧ d ≠ ';' := by
  cases hnext : c.next with
  | token t c' =>
      obtain ⟨w, text, hrest, hw, hl, -⟩ := next_eq_token_iff.mp hnext
      obtain ⟨d, used, rfl⟩ := List.exists_cons_of_ne_nil hl.ne_nil
      exact ⟨w, d, used, hrest, hw, hl.head⟩
  | failed e c' =>
      rcases next_eq_failed hnext with
        ⟨w, body, _, tail, hrest, hw, -, -, hnil, -⟩ |
        ⟨w, body, _, x, hrest, hw, -⟩
      · refine ⟨w, '"', body ++ tail, ?_, ?_, by decide⟩
        · rw [Step.cursor, hnil, List.append_nil, hrest]
        · rwa [Step.cursor, hnil, List.append_nil]
      · refine ⟨w, '"', body ++ ['\\', x], ?_, ?_, by decide⟩
        · rw [Step.cursor, List.append_assoc, hrest]
          rfl
        · rw [Step.cursor, List.append_assoc]
          exact hw
  | finished last => exact absurd hnext (h last)

/-- At the end every call finds the same end. -/
theorem next_onward_of_finished {c last : Cursor} (h : c.next = .finished last)
    (n : Nat) : (c.onward n).next = .finished last := by
  have hlast : last.next = .finished last := by
    obtain ⟨-, rfl⟩ := next_eq_finished_iff.mp h
    exact next_eq_finished_iff.mpr ⟨.nil, rfl⟩
  induction n with
  | zero => exact h
  | succ n ih => rw [onward, ih]; exact hlast

/-! ## All tokens of a source -/

theorem Takes.eq_onward {c c' : Cursor} {ts : List Token} (h : c.Takes ts c') :
    c' = c.onward ts.length := by
  induction h with
  | refl c => rfl
  | @step c c' c'' t ts h _ ih =>
      have hc' : c.onward 1 = c' := by
        rw [onward, onward, h]
        rfl
      rw [ih, List.length_cons, Nat.add_comm, onward_add, hc']

/-- Every token has a character of its own. -/
theorem Takes.length_le {c c' : Cursor} {ts : List Token}
    (h : c.Takes ts c') : ts.length + c'.rest.length ≤ c.rest.length := by
  induction h with
  | refl c => rw [List.length_nil, Nat.zero_add]
  | step h _ ih =>
      have hshorter := length_rest_lt_of_next h
      rw [List.length_cons]
      omega

/-- The tokens are those of the calls up to the end, or to the first failure. -/
theorem tokensFrom_takes (reversed : List Token) (c : Cursor) :
    ∃ ts c', c.Takes ts c' ∧
      ((∃ last, c'.next = .finished last ∧
          c.tokensFrom reversed =
            .ok ⟨reversed.reverse ++ ts, last.position⟩) ∨
        ∃ e c'', c'.next = .failed e c'' ∧
          c.tokensFrom reversed = .error e) := by
  fun_induction tokensFrom reversed c with
  | case1 reversed c t c' hnext _ ih =>
      obtain ⟨ts, d, htakes, hend⟩ := ih
      rw [List.reverse_cons, List.append_assoc] at hend
      exact ⟨t :: ts, d, .step hnext htakes, hend⟩
  | case2 reversed c e c' hnext =>
      exact ⟨[], c, .refl c, .inr ⟨e, c', hnext, rfl⟩⟩
  | case3 reversed c last hnext =>
      refine ⟨[], c, .refl c, .inl ⟨last, hnext, ?_⟩⟩
      rw [List.append_nil]

/-- After any number of calls, failed ones included, either blanks and comments
are all that is left, and then this and every later call finds the same end; or
the next call uses up a character behind the blanks and comments that come
first. What calls come to from there on is what they come to in a source that
consists of the rest, with places told from where the rest begins; behind an
unknown escape that is what follows its character, and behind a string that does
not end it is nothing. So the tokens of a source are taken by as many calls, at
most one for each of its characters, and the call after them finds the end or is
the first that fails. -/
theorem resumes_anywhere (source : String) (n : Nat) {c : Cursor}
    (hc : (start source).onward n = c) :
    ((Separator [] c.rest ∧ ∃ last, ∀ k, (c.onward k).next = .finished last) ∨
      (∀ last, c.next ≠ .finished last) ∧
        ∃ w d used, c.rest = w ++ d :: (used ++ c.next.cursor.rest) ∧
          Separator (d :: (used ++ c.next.cursor.rest)) w ∧
          Text.isBlank d = false ∧ d ≠ ';') ∧
      c.rest <:+ source.toList ∧
      (∀ k, (c.onward k).next =
        ((start (String.ofList c.rest)).onward k).next.moved
          (.within c.position)) ∧
      (∀ x p c', c.next = .failed (.unknownEscape x p) c' →
        ∃ front, c.rest = front ++ '\\' :: x :: c'.rest ∧
          p = c.position.advanceAll front) ∧
      (∀ p c', c.next = .failed (.unterminatedString p) c' → c'.rest = []) ∧
      ∃ ts : List Token, ts.length ≤ source.toList.length ∧
        (start source).Takes ts ((start source).onward ts.length) ∧
        ((∃ last, ((start source).onward ts.length).next = .finished last ∧
            Tokens.ofSource source = .ok ⟨ts, last.position⟩) ∨
          ∃ e c', ((start source).onward ts.length).next = .failed e c' ∧
            Tokens.ofSource source = .error e) := by
  refine ⟨?progress, ?rest, next_onward_eq c, ?escape, ?string, ?tokens⟩
  case progress =>
    by_cases hend : ∃ last, c.next = .finished last
    · obtain ⟨last, hlast⟩ := hend
      exact .inl ⟨(next_eq_finished_iff.mp hlast).1, last,
        next_onward_of_finished hlast⟩
    · rw [not_exists] at hend
      exact .inr ⟨hend, progress hend⟩
  case rest =>
    obtain ⟨before, hsource, -⟩ := precedes_onward (start source) n
    rw [hc] at hsource
    exact ⟨before, hsource.symm⟩
  case escape =>
    intro x p c' h
    rcases next_eq_failed h with ⟨_, _, _, _, -, -, -, -, -, he⟩ |
      ⟨w, body, _, y, hrest, -, -, -, he⟩
    · cases he
    · cases he
      refine ⟨w ++ '"' :: body, ?_, rfl⟩
      rw [hrest, List.append_assoc]
      rfl
  case string =>
    intro p c' h
    rcases next_eq_failed h with ⟨_, _, _, _, -, -, -, -, hnil, -⟩ |
      ⟨_, _, _, _, -, -, -, -, he⟩
    · exact hnil
    · cases he
  case tokens =>
    obtain ⟨ts, c', htakes, hend⟩ := tokensFrom_takes [] (start source)
    have hlength : ts.length ≤ source.toList.length :=
      Nat.le_trans (Nat.le_add_right _ _) htakes.length_le
    have hc' := htakes.eq_onward
    rw [hc'] at htakes hend
    exact ⟨ts, hlength, htakes, hend⟩

/-- Braces behind an unknown escape. The string that it stands in is given up, so
they are read as in a source of their own, four columns to the left; and behind
them the end is found for good. -/
theorem resumes_behind_escape :
    let source := "\"a\\q\x7b\n\x7d"
    let rest := ['{', '\n', '}']
    ((start source).onward 0).next =
        .failed (.unknownEscape 'q' ⟨1, 3⟩) ⟨⟨1, 5⟩, rest⟩ ∧
      (∃ front, source.toList = front ++ '\\' :: 'q' :: rest) ∧
      ((start source).onward 1) = ⟨⟨1, 5⟩, rest⟩ ∧
      (((start source).onward 1).onward 1).next =
        ((start (String.ofList rest)).onward 1).next.moved
          (.within ⟨1, 5⟩) ∧
      (((start source).onward 1).onward 1).next =
        .token ⟨.closeBrace, ⟨2, 1⟩⟩ ⟨⟨2, 2⟩, []⟩ ∧
      (∀ k, (((start source).onward 3).onward k).next =
        .finished ⟨⟨2, 2⟩, []⟩) := by
  intro source rest
  have h₀ : ((start source).onward 0).next =
      .failed (.unknownEscape 'q' ⟨1, 3⟩) ⟨⟨1, 5⟩, rest⟩ := by
    decide +kernel
  have h₁ : (start source).onward 1 = ⟨⟨1, 5⟩, rest⟩ := by
    decide +kernel
  have h₂ : (((start source).onward 1).onward 1).next =
      .token ⟨.closeBrace, ⟨2, 1⟩⟩ ⟨⟨2, 2⟩, []⟩ := by
    decide +kernel
  have h₃ : ((start source).onward 3).next = .finished ⟨⟨2, 2⟩, []⟩ := by
    decide +kernel
  obtain ⟨-, -, -, hescape, -⟩ := resumes_anywhere source 0 rfl
  obtain ⟨-, -, hfresh, -⟩ := resumes_anywhere source 1 rfl
  obtain ⟨hprogress, -⟩ := resumes_anywhere source 3 rfl
  obtain ⟨front, hfront, -⟩ := hescape 'q' ⟨1, 3⟩ _ h₀
  have hresumed := hfresh 1
  rw [h₁] at hresumed
  refine ⟨h₀, ⟨front, hfront⟩, h₁, ?_, h₂, ?_⟩
  · rw [h₁]
    exact hresumed
  · rcases hprogress with ⟨-, last, hlast⟩ | ⟨hnot, -⟩
    · have hsame := hlast 0
      rw [onward, h₃] at hsame
      cases hsame
      exact hlast
    · exact absurd h₃ (hnot _)

end Cursor

end BraceLisp
