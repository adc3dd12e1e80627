import BraceLisp.Term
import BraceLisp.Token.Cursor

/-!
# Reading terms

Tokens are put together by a single pass that keeps the groups still open, innermost first. A read
that fails has also used up the tokens that it has seen, so a sequence of reads goes on behind the
fault.

A read of a non-empty token list always uses up a token (`length_next_lt`), which is why reading
all terms ends.
-/

namespace BraceLisp

/-- A group whose closing brace has not been seen, with its members so far, last first. -/
structure OpenGroup where
  opened : Position
  reversed : List Term

namespace OpenGroup

/-- The group with one more member. -/
def add (g : OpenGroup) (t : Term) : OpenGroup := { g with reversed := t :: g.reversed }

/-- The finished group. -/
def close (g : OpenGroup) : Term := .list g.reversed.reverse

end OpenGroup

namespace Term

/-- Reads on inside the given open groups until the outermost is closed. Returns the term or the
fault, and the tokens that are left. -/
def nextWithin : List OpenGroup → List Token → Except SyntaxError Term × List Token
  | [], [] => (.error .unexpectedEnd, [])
  | g :: _, [] => (.error (.unclosedGroup g.opened), [])
  | groups, ⟨.openBrace, p⟩ :: rest => nextWithin (⟨p, []⟩ :: groups) rest
  | [], ⟨.closeBrace, p⟩ :: rest => (.error (.unexpectedClose p), rest)
  | [g], ⟨.closeBrace, _⟩ :: rest => (.ok g.close, rest)
  | g :: outer :: groups, ⟨.closeBrace, _⟩ :: rest =>
    nextWithin (outer.add g.close :: groups) rest
  | [], ⟨.atom a, _⟩ :: rest => (.ok (.atom a), rest)
  | g :: groups, ⟨.atom a, _⟩ :: rest => nextWithin (g.add (.atom a) :: groups) rest

/-- Reads the next term. -/
def next (tokens : List Token) : Except SyntaxError Term × List Token := nextWithin [] tokens

theorem length_nextWithin_le (groups : List OpenGroup) (tokens : List Token) :
    (nextWithin groups tokens).2.length ≤ tokens.length - 1 := by
  fun_induction nextWithin groups tokens <;> simp_all <;> omega

/-- Reading uses up a token if there is one. -/
theorem length_next_lt {tokens rest : List Token} {r : Except SyntaxError Term}
    (hne : tokens ≠ []) (h : next tokens = (r, rest)) : rest.length < tokens.length := by
  have hle := length_nextWithin_le [] tokens
  have hpos := List.length_pos_iff.mpr hne
  rw [next] at h
  rw [h] at hle
  simp only at hle
  omega

/-- Reads all terms that are left, behind those already read. -/
def allOfTokensFrom (reversed : List Term) : List Token → Except SyntaxError (List Term)
  | [] => .ok reversed.reverse
  | t :: tokens =>
    match h : next (t :: tokens) with
    | (.error e, _) => .error e
    | (.ok term, rest) =>
      have := length_next_lt (List.cons_ne_nil t tokens) h
      allOfTokensFrom (term :: reversed) rest
termination_by tokens => tokens.length
decreasing_by assumption

/-- Reads a source that holds exactly one term. -/
def ofSource (source : String) : Except SyntaxError Term :=
  match Tokens.ofSource source with
  | .error e => .error e
  | .ok { tokens, .. } =>
    match next tokens with
    | (.error e, _) => .error e
    | (.ok term, []) => .ok term
    | (.ok _, t :: _) => .error (.trailingInput t.position)

/-- Reads all terms of a source. -/
def allOfSource (source : String) : Except SyntaxError (List Term) :=
  match Tokens.ofSource source with
  | .error e => .error e
  | .ok { tokens, .. } => allOfTokensFrom [] tokens

end Term

end BraceLisp
