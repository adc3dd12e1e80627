import BraceLisp.Proofs.Evidence
import BraceLisp.Proofs.Lexing
import BraceLisp.Proofs.Reading

/-!
# Places move with the text

Where a text begins decides the places of what is read from it, and nothing
else. A function on places `Carries` one beginning to another if it takes every
place behind the one to the same place behind the other, as `Position.down`
takes a line to a later one. Lexing and reading from the two beginnings then
take the same turns, and their tokens, terms and faults differ by that function.

The lexer hands on the place that it has reached, so its steps are compared
together with the cursors that they leave (`Step.Carries`). Past the lexer no
place is ever computed, and the reader only needs a list of moved tokens.
-/

namespace BraceLisp

variable {f : Position → Position}

namespace Position

/-- The place in the same column, so many lines further down. -/
def down (lines : Nat) (p : Position) : Position :=
  ⟨p.line + lines, p.column⟩

/-- Takes the places of any text that begins at `p` to those of the same text
where it begins at `q`. -/
def Carries (f : Position → Position) (p q : Position) : Prop :=
  ∀ text, f (p.advanceAll text) = q.advanceAll text

theorem Carries.eq {p q : Position} (h : Carries f p q) : f p = q := h []

theorem Carries.advance {p q : Position} (h : Carries f p q) (c : Char) :
    Carries f (p.advance c) (q.advance c) :=
  fun text => h (c :: text)

theorem Carries.advanceAll {p q : Position} (h : Carries f p q)
    (text : List Char) : Carries f (p.advanceAll text) (q.advanceAll text) := by
  intro text'
  rw [← advanceAll_append, ← advanceAll_append, h]

theorem carries_down (lines : Nat) (p : Position) :
    Carries (down lines) p (p.down lines) := by
  intro text
  induction text generalizing p with
  | nil => rfl
  | cons c text ih =>
      have hstep : (p.down lines).advance c = (p.advance c).down lines := by
        rw [advance, advance]
        split
        · simp only [down, Nat.add_right_comm]
        · rfl
      rw [advanceAll_cons, advanceAll_cons, hstep, ih]

end Position

/-! ## Moving what bears a place -/

def Token.moved (f : Position → Position) (t : Token) : Token :=
  ⟨t.lexeme, f t.position⟩

def Tokens.moved (f : Position → Position) (ts : Tokens) : Tokens :=
  ⟨ts.tokens.map (Token.moved f), f ts.finish⟩

/-- The fault at a place that has been moved. Most faults bear no place. -/
def SyntaxError.moved (f : Position → Position) : SyntaxError → SyntaxError
  | unexpectedClose p => unexpectedClose (f p)
  | unclosedGroup p => unclosedGroup (f p)
  | unterminatedString p => unterminatedString (f p)
  | unknownEscape c p => unknownEscape c (f p)
  | trailingInput p => trailingInput (f p)
  | e => e

theorem SyntaxError.moved_eq_self {e : SyntaxError} (h : e.place? = none) :
    e.moved f = e := by
  cases e with
  | unexpectedEnd | malformedIf | malformedLam | malformedVar
  | duplicateParameter | reservedWord | invalidParameter
  | emptyApplication => rfl
  | unexpectedClose | unclosedGroup | unterminatedString | unknownEscape
  | trailingInput => cases h

def OpenGroup.moved (f : Position → Position) (g : OpenGroup) : OpenGroup :=
  ⟨f g.opened, g.reversed⟩

/-! ## The lexer -/

/-- Two cursors before one text, at places that answer to each other. -/
inductive Cursor.Carries (f : Position → Position) : Cursor → Cursor → Prop where
  | before (text : List Char) {p q : Position} (h : Position.Carries f p q) :
      Carries f ⟨p, text⟩ ⟨q, text⟩

/-- Two steps of the lexer that differ in their places alone. -/
inductive Step.Carries (f : Position → Position) : Step → Step → Prop where
  | token {l : Lexeme} {p q : Position} {c d : Cursor} (hp : f p = q)
      (h : c.Carries f d) : Carries f (.token ⟨l, p⟩ c) (.token ⟨l, q⟩ d)
  | failed {e e' : SyntaxError} {c d : Cursor} (he : e.moved f = e')
      (h : c.Carries f d) : Carries f (.failed e c) (.failed e' d)
  | finished {c d : Cursor} (h : c.Carries f d) :
      Carries f (.finished c) (.finished d)

namespace Cursor

theorem skipFrom_carries {p q : Position} (h : Position.Carries f p q)
    (comment : Bool) (text : List Char) :
    (skipFrom comment p text).Carries f (skipFrom comment q text) := by
  induction text generalizing comment p q with
  | nil => rw [skipFrom, skipFrom]; exact .before [] h
  | cons c text ih =>
      cases comment with
      | true => exact ih (h.advance c) _
      | false =>
          rw [skipFrom, skipFrom]
          split
          · exact ih (h.advance c) _
          · split
            · exact ih (h.advance c) _
            · exact .before (c :: text) h

theorem stringFrom_carries {opened opened' p q : Position}
    (hopened : f opened = opened') (h : Position.Carries f p q)
    (reversed text : List Char) :
    (stringFrom opened reversed p text).Carries f
      (stringFrom opened' reversed q text) := by
  subst hopened
  fun_induction stringFrom opened reversed p text generalizing q with
  | case1 =>
      rw [stringFrom]
      exact .failed rfl (.before [] h)
  | case2 =>
      rw [stringFrom]
      exact .failed rfl (.before [] (h.advance '\\'))
  | case3 reversed p e text next d hd =>
      rename_i ih
      rw [stringFrom_escape _ _ _ _ hd]
      exact ih ((h.advance '\\').advance e)
  | case4 reversed p e text next =>
      rename_i hnone
      rw [stringFrom]
      simp only [hnone]
      exact .failed (by rw [SyntaxError.moved, h.eq])
        (.before text ((h.advance '\\').advance e))
  | case5 reversed p text hlast hbackslash =>
      rw [stringFrom]
      · rw [if_pos rfl]
        exact .token rfl (.before text (h.advance '"'))
      · exact hlast
      · exact hbackslash
  | case6 reversed p c text hlast hbackslash hquote ih =>
      rw [stringFrom]
      · rw [if_neg hquote]
        exact ih (h.advance c)
      · exact hlast
      · exact hbackslash

theorem word_carries {p q : Position} (h : Position.Carries f p q)
    (text : List Char) : (word p text).Carries f (word q text) :=
  .token h.eq (.before _ (h.advanceAll _))

theorem next_carries {c d : Cursor} (h : c.Carries f d) :
    c.next.Carries f d.next := by
  obtain @⟨text, p, q, h⟩ := h
  have hskip := skipFrom_carries h false text
  unfold next skip
  dsimp only
  -- Both skip to the same text, so they take the same branch.
  generalize skipFrom false p text = c, skipFrom false q text = d at hskip ⊢
  obtain ⟨text, h⟩ := hskip
  dsimp only
  split
  · exact .finished (.before [] h)
  · exact .token h.eq (.before _ (h.advance '{'))
  · exact .token h.eq (.before _ (h.advance '}'))
  · exact stringFrom_carries h.eq (h.advance '"') [] _
  · exact word_carries h text

/-- Taking all tokens from a place that has been moved. -/
theorem tokensFrom_moved {c d : Cursor} (h : c.Carries f d)
    (reversed : List Token) :
    d.tokensFrom (reversed.map (Token.moved f)) =
      ((c.tokensFrom reversed).map (Tokens.moved f)).mapError
        (SyntaxError.moved f) := by
  -- The induction follows the run from `c`; the run from `d` keeps in step.
  fun_induction tokensFrom reversed c generalizing d with
  | case1 reversed c t next hnext _ ih =>
      have hstep := next_carries h
      rw [hnext] at hstep
      generalize hd : d.next = step at hstep
      cases hstep with
      | token hp h =>
          subst hp
          rw [tokensFrom_of_next hd]
          exact ih h
  | case2 reversed c e _ hnext =>
      have hstep := next_carries h
      rw [hnext] at hstep
      generalize hd : d.next = step at hstep
      cases hstep with
      | failed he h =>
          subst he
          rw [tokensFrom_eq, hd]
          rfl
  | case3 reversed c last hnext =>
      have hstep := next_carries h
      rw [hnext] at hstep
      generalize hd : d.next = step at hstep
      cases hstep with
      | finished h =>
          obtain ⟨text, h⟩ := h
          rw [tokensFrom_eq, hd]
          dsimp only
          rw [← h.eq, ← List.map_reverse]
          rfl

end Cursor

/-! ## The reader -/

namespace Term

theorem nextWithin_moved (groups : List OpenGroup) (tokens : List Token) :
    nextWithin (groups.map (OpenGroup.moved f)) (tokens.map (Token.moved f)) =
      ((nextWithin groups tokens).1.mapError (SyntaxError.moved f),
        (nextWithin groups tokens).2.map (Token.moved f)) := by
  fun_induction nextWithin groups tokens with
  | case1 | case2 | case4 | case5 | case7 => rfl
  | case3 groups p tokens ih =>
      show nextWithin _ (⟨.openBrace, f p⟩ :: _) = _
      rw [nextWithin]
      exact ih
  | case6 g outer groups p tokens ih => rw [← ih]; rfl
  | case8 g groups a p tokens ih => rw [← ih]; rfl

theorem next_moved {tokens rest : List Token} {r : Except SyntaxError Term}
    (h : next tokens = (r, rest)) :
    next (tokens.map (Token.moved f)) =
      (r.mapError (SyntaxError.moved f), rest.map (Token.moved f)) := by
  have hmoved := nextWithin_moved (f := f) [] tokens
  rw [← next, h] at hmoved
  exact hmoved

theorem allOfTokensFrom_moved (reversed : List Term) (tokens : List Token) :
    allOfTokensFrom reversed (tokens.map (Token.moved f)) =
      (allOfTokensFrom reversed tokens).mapError (SyntaxError.moved f) := by
  fun_induction allOfTokensFrom reversed tokens with
  | case1 reversed =>
      rw [List.map_nil, allOfTokensFrom]
      rfl
  | case2 reversed t tokens e rest hnext =>
      exact allOfTokensFrom_of_fault (List.cons_ne_nil _ _) (next_moved hnext) _
  | case3 reversed token tokens t rest hnext _ ih =>
      rw [← ih]
      exact allOfTokensFrom_of_next (List.cons_ne_nil _ _) (next_moved hnext) _

end Term

end BraceLisp
