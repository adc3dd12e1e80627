import BraceLisp.Term.OfTokens

/-!
# Reading undoes flattening

A term is read from exactly the lexemes that it consists of. In one direction
the reader, given the lexemes of a term and anything behind them, returns the
term and what is behind (`Term.next_flatten`). In the other, whatever it
returns has the lexemes that it used up (`Term.flatten_of_next`), where the
invariant of the pass is that the groups still open account for all tokens seen
so far.

So a source is read as the terms whose flattening its lexemes are, and if there
are none it is not read (`Term.ofSource_eq_ok_iff`,
`Term.allOfSource_eq_ok_iff`).
-/

namespace BraceLisp

/-- What the tokens are, apart from their places. -/
def Tokens.lexemes (ts : Tokens) : List Lexeme := ts.tokens.map Token.lexeme

/-- The lexemes of a source, if it has tokens. -/
def Tokens.lexemes? (source : String) : Option (List Lexeme) :=
  (ofSource source).toOption.map lexemes

theorem Tokens.lexemes?_eq_some_iff {source : String} {ls : List Lexeme} :
    lexemes? source = some ls ↔
      ∃ ts, ofSource source = .ok ts ∧ ts.lexemes = ls := by
  rw [lexemes?]
  cases ofSource source with
  | error e => simp [Except.toOption]
  | ok ts => simp [Except.toOption]

namespace Term

theorem flattenAll_append (ts us : List Term) :
    flattenAll (ts ++ us) = flattenAll ts ++ flattenAll us := by
  induction ts with
  | nil => rfl
  | cons t ts ih =>
      rw [List.cons_append, flattenAll, flattenAll, ih, List.append_assoc]

theorem mem_flattenAll {l : Lexeme} {ts : List Term} :
    l ∈ flattenAll ts ↔ ∃ t ∈ ts, l ∈ t.flatten := by
  induction ts with
  | nil => simp [flattenAll]
  | cons t ts ih => simp [flattenAll, ih]

end Term

namespace OpenGroup

def lexemes (g : OpenGroup) : List Lexeme :=
  .openBrace :: Term.flattenAll g.reversed.reverse

/-- The lexemes of all groups that are open, the innermost last. -/
def pending : List OpenGroup → List Lexeme
  | [] => []
  | g :: groups => pending groups ++ g.lexemes

theorem lexemes_add (g : OpenGroup) (t : Term) :
    (g.add t).lexemes = g.lexemes ++ t.flatten := by
  rw [lexemes, lexemes, add, List.reverse_cons, Term.flattenAll_append,
    Term.flattenAll, Term.flattenAll, List.append_nil, List.cons_append]

theorem flatten_close (g : OpenGroup) :
    g.close.flatten = g.lexemes ++ [.closeBrace] := by
  rw [close, Term.flatten, lexemes, List.cons_append]

end OpenGroup

namespace Term

open OpenGroup

/-! ## Every lexeme is accounted for -/

theorem flatten_of_nextWithin {groups : List OpenGroup}
    {tokens rest : List Token} {t : Term}
    (h : nextWithin groups tokens = (.ok t, rest)) :
    ∃ used, tokens = used ++ rest ∧
      t.flatten = pending groups ++ used.map Token.lexeme := by
  fun_induction nextWithin groups tokens with
  | case1 => cases h
  | case2 => cases h
  | case3 groups p tokens ih =>
      obtain ⟨used, rfl, ht⟩ := ih h
      refine ⟨⟨.openBrace, p⟩ :: used, rfl, ?_⟩
      rw [ht, pending, List.append_assoc]
      rfl
  | case4 => cases h
  | case5 g p tokens =>
      cases h
      exact ⟨[⟨.closeBrace, p⟩], rfl, g.flatten_close⟩
  | case6 g outer groups p tokens ih =>
      -- The closed group becomes a member of the one around it.
      obtain ⟨used, rfl, ht⟩ := ih h
      refine ⟨⟨.closeBrace, p⟩ :: used, rfl, ?_⟩
      rw [ht, pending, lexemes_add, flatten_close, pending, pending]
      simp only [List.append_assoc, List.map_cons, List.cons_append,
        List.nil_append]
  | case7 a p tokens =>
      cases h
      exact ⟨[⟨.atom a, p⟩], rfl, rfl⟩
  | case8 g groups a p tokens ih =>
      obtain ⟨used, rfl, ht⟩ := ih h
      refine ⟨⟨.atom a, p⟩ :: used, rfl, ?_⟩
      rw [ht, pending, lexemes_add, pending]
      simp only [flatten, List.append_assoc, List.map_cons, List.cons_append,
        List.nil_append]

/-- A term that is read has the lexemes that reading it used up. -/
theorem flatten_of_next {tokens rest : List Token} {t : Term}
    (h : next tokens = (.ok t, rest)) :
    ∃ used, tokens = used ++ rest ∧ t.flatten = used.map Token.lexeme :=
  flatten_of_nextWithin h

/-- The terms of a source have its lexemes. -/
theorem flattenAll_of_allOfTokensFrom {reversed ts : List Term}
    {tokens : List Token} (h : allOfTokensFrom reversed tokens = .ok ts) :
    flattenAll ts =
      flattenAll reversed.reverse ++ tokens.map Token.lexeme := by
  fun_induction allOfTokensFrom reversed tokens with
  | case1 reversed =>
      cases h
      exact (List.append_nil _).symm
  | case2 => cases h
  | case3 reversed token tokens t rest hnext _ ih =>
      obtain ⟨used, hused, ht⟩ := flatten_of_next hnext
      rw [ih h, hused, List.reverse_cons, flattenAll_append, flattenAll,
        flattenAll, List.append_nil, ht, List.map_append, List.append_assoc]

/-! ## Lexemes are put together -/

theorem tokens_of_atom {a : Atom} {used : List Token}
    (h : used.map Token.lexeme = (atom a).flatten) :
    ∃ p, used = [⟨.atom a, p⟩] := by
  obtain ⟨⟨l, p⟩, none, rfl, hl, hnone⟩ := List.map_eq_cons_iff.mp h
  cases hl
  cases List.map_eq_nil_iff.mp hnone
  exact ⟨p, rfl⟩

theorem tokens_of_list {items : List Term} {used : List Token}
    (h : used.map Token.lexeme = (list items).flatten) :
    ∃ p inner q, used = ⟨.openBrace, p⟩ :: (inner ++ [⟨.closeBrace, q⟩]) ∧
      inner.map Token.lexeme = flattenAll items := by
  obtain ⟨⟨l, p⟩, behind, rfl, hl, hbehind⟩ := List.map_eq_cons_iff.mp h
  cases hl
  obtain ⟨inner, last, rfl, hinner, hlast⟩ := List.map_eq_append_iff.mp hbehind
  obtain ⟨⟨l, q⟩, none, rfl, hl, hnone⟩ := List.map_eq_cons_iff.mp hlast
  cases hl
  cases List.map_eq_nil_iff.mp hnone
  exact ⟨p, inner, q, rfl, hinner⟩

mutual

theorem nextWithin_flatten {t : Term} {used : List Token}
    (h : used.map Token.lexeme = t.flatten) (g : OpenGroup)
    (groups : List OpenGroup) (rest : List Token) :
    nextWithin (g :: groups) (used ++ rest) =
      nextWithin (g.add t :: groups) rest := by
  match t with
  | atom a =>
      obtain ⟨p, rfl⟩ := tokens_of_atom h
      rw [List.cons_append, List.nil_append, nextWithin]
  | list items =>
      obtain ⟨p, inner, q, rfl, hinner⟩ := tokens_of_list h
      rw [List.cons_append, List.append_assoc, nextWithin,
        nextWithin_flattenAll hinner, List.cons_append, List.nil_append,
        nextWithin, close, List.append_nil, List.reverse_reverse]

theorem nextWithin_flattenAll {ts : List Term} {used : List Token}
    (h : used.map Token.lexeme = flattenAll ts) (g : OpenGroup)
    (groups : List OpenGroup) (rest : List Token) :
    nextWithin (g :: groups) (used ++ rest) =
      nextWithin ({ g with reversed := ts.reverse ++ g.reversed } :: groups)
        rest := by
  match ts with
  | [] =>
      cases List.map_eq_nil_iff.mp h
      rfl
  | t :: ts =>
      obtain ⟨first, others, rfl, hfirst, hothers⟩ :=
        List.map_eq_append_iff.mp h
      rw [List.append_assoc, nextWithin_flatten hfirst,
        nextWithin_flattenAll hothers, List.reverse_cons, List.append_assoc]
      rfl

end

/-- The lexemes of a term, and anything behind them, are read as the term. -/
theorem next_flatten {t : Term} {used : List Token}
    (h : used.map Token.lexeme = t.flatten) (rest : List Token) :
    next (used ++ rest) = (.ok t, rest) := by
  match t with
  | atom a =>
      obtain ⟨p, rfl⟩ := tokens_of_atom h
      rw [next, List.cons_append, List.nil_append, nextWithin]
  | list items =>
      obtain ⟨p, inner, q, rfl, hinner⟩ := tokens_of_list h
      rw [next, List.cons_append, List.append_assoc, nextWithin,
        nextWithin_flattenAll hinner, List.cons_append, List.nil_append,
        nextWithin, close, List.append_nil, List.reverse_reverse]

theorem flatten_ne_nil (t : Term) : t.flatten ≠ [] := by
  cases t with
  | atom => exact List.cons_ne_nil _ _
  | list => exact List.cons_ne_nil _ _

theorem allOfTokensFrom_of_next {tokens rest : List Token} {t : Term}
    (hne : tokens ≠ []) (h : next tokens = (.ok t, rest))
    (reversed : List Term) :
    allOfTokensFrom reversed tokens = allOfTokensFrom (t :: reversed) rest := by
  obtain ⟨token, tokens, rfl⟩ := List.exists_cons_of_ne_nil hne
  rw [allOfTokensFrom]
  split
  · next heq => rw [h] at heq; cases heq
  · next heq => rw [h] at heq; cases heq; rfl

theorem allOfTokensFrom_of_fault {tokens rest : List Token} {e : SyntaxError}
    (hne : tokens ≠ []) (h : next tokens = (.error e, rest))
    (reversed : List Term) : allOfTokensFrom reversed tokens = .error e := by
  obtain ⟨token, tokens, rfl⟩ := List.exists_cons_of_ne_nil hne
  rw [allOfTokensFrom]
  split
  · next heq => rw [h] at heq; cases heq; rfl
  · next heq => rw [h] at heq; cases heq

/-- The lexemes of terms are read as the terms. -/
theorem allOfTokensFrom_flattenAll {ts : List Term} {used : List Token}
    (h : used.map Token.lexeme = flattenAll ts) (reversed : List Term) :
    allOfTokensFrom reversed used = .ok (reversed.reverse ++ ts) := by
  induction ts generalizing used reversed with
  | nil =>
      cases List.map_eq_nil_iff.mp h
      rw [allOfTokensFrom, List.append_nil]
  | cons t ts ih =>
      obtain ⟨first, others, rfl, hfirst, hothers⟩ :=
        List.map_eq_append_iff.mp h
      have hne : first ++ others ≠ [] := by
        intro hnil
        obtain ⟨rfl, -⟩ := List.append_eq_nil_iff.mp hnil
        exact t.flatten_ne_nil hfirst.symm
      rw [allOfTokensFrom_of_next hne (next_flatten hfirst others),
        ih hothers, List.reverse_cons, List.append_assoc]
      rfl

/-! ## Sources -/

/-- A source is read as the term that has its lexemes. -/
theorem ofSource_eq_ok_iff {source : String} {t : Term} :
    ofSource source = .ok t ↔ Tokens.lexemes? source = some t.flatten := by
  rw [Tokens.lexemes?_eq_some_iff]
  constructor
  · intro h
    unfold ofSource at h
    split at h
    · cases h
    · next tokens finish htokens =>
        split at h
        · cases h
        · next hnext =>
            cases h
            obtain ⟨used, rfl, ht⟩ := flatten_of_next hnext
            refine ⟨_, htokens, ?_⟩
            rw [Tokens.lexemes, List.append_nil, ht]
        · cases h
  · rintro ⟨⟨tokens, finish⟩, htokens, hlexemes⟩
    have hnext := next_flatten hlexemes []
    rw [List.append_nil] at hnext
    simp only [ofSource, htokens, hnext]

/-- All terms of a source are read as those that have its lexemes. -/
theorem allOfSource_eq_ok_iff {source : String} {ts : List Term} :
    allOfSource source = .ok ts ↔
      Tokens.lexemes? source = some (flattenAll ts) := by
  rw [Tokens.lexemes?_eq_some_iff]
  constructor
  · intro h
    unfold allOfSource at h
    split at h
    · cases h
    · next tokens finish htokens =>
        exact ⟨_, htokens, (flattenAll_of_allOfTokensFrom h).symm⟩
  · rintro ⟨⟨tokens, finish⟩, htokens, hlexemes⟩
    simp only [allOfSource, htokens]
    exact allOfTokensFrom_flattenAll hlexemes []

end Term

end BraceLisp
