import BraceLisp.Proofs.Reads
import BraceLisp.Proofs.Reports

/-!
# One term or all of them

A source can be read as the one term that it holds, or as all its terms. Both
ways begin alike, with the first term. Where there is one, the first reader
wants the source to end behind it, and the second goes on; where there is none,
because the source has no tokens or because they do not begin with a term, both
fail alike, except that nothing at all is no fault to the second
(`Term.readings`).

What one of them comes to therefore tells what the other does. A source that can
be read as one term is the program of this one expression, and evaluating it
shows what running it returns.
-/

namespace BraceLisp

namespace Term

/-! ## The first term -/

/-- The tokens begin with those of the term, and `rest` is behind them. -/
def Leads (t : Term) (tokens rest : List Token) : Prop :=
  ∃ used, tokens = used ++ rest ∧ used.map Token.lexeme = t.flatten

variable {t : Term} {tokens rest : List Token}

theorem next_eq_ok_iff : next tokens = (.ok t, rest) ↔ t.Leads tokens rest := by
  constructor
  · intro h
    obtain ⟨used, hused, ht⟩ := flatten_of_next h
    exact ⟨used, hused, ht.symm⟩
  · intro ⟨used, hused, ht⟩
    rw [hused]
    exact next_flatten ht rest

theorem Leads.unique {t' : Term} {rest' : List Token}
    (h : t.Leads tokens rest) (h' : t'.Leads tokens rest') :
    t = t' ∧ rest = rest' := by
  have hnext := next_eq_ok_iff.mpr h
  rw [next_eq_ok_iff.mpr h'] at hnext
  cases hnext
  exact ⟨rfl, rfl⟩

/-- All terms are the first one and those behind it. -/
theorem Leads.allOfTokensFrom (h : t.Leads tokens rest) :
    allOfTokensFrom [] tokens = (allOfTokensFrom [] rest).map (t :: ·) := by
  have hnext := next_eq_ok_iff.mpr h
  rw [allOfTokensFrom_of_next (ne_nil_of_next hnext) hnext,
    ← List.nil_append [t], allOfTokensFrom_behind]
  rfl

theorem exists_leads {ts : List Term}
    (h : Term.allOfTokensFrom [] tokens = .ok (t :: ts)) :
    ∃ rest, t.Leads tokens rest := by
  have hlexemes := flattenAll_of_allOfTokensFrom h
  rw [List.reverse_nil, flattenAll, flattenAll, List.nil_append] at hlexemes
  obtain ⟨used, rest, hused, ht, -⟩ := List.map_eq_append_iff.mp hlexemes.symm
  exact ⟨rest, used, hused, ht⟩

theorem tokens_of_unexpectedEnd
    (h : next tokens = (.error .unexpectedEnd, rest)) : tokens = [] := by
  obtain ⟨used, hused, hreading⟩ := reading_next tokens
  rw [h] at hused hreading
  cases hreading with
  | finished => exact hused

/-! ## Both readers -/

/-- What a source is read as if one term is wanted, and what if all are. -/
inductive Readings (source : String) :
    Except SyntaxError Term → Except SyntaxError (List Term) → Prop where
  | blank {ts : Tokens} (htokens : Tokens.ofSource source = .ok ts)
      (hnil : ts.tokens = []) :
      Readings source (.error .unexpectedEnd) (.ok [])
  /-- There is a fault, and no term in front of it. -/
  | fault {e : SyntaxError} (he : e ≠ .unexpectedEnd)
      (hnone : ∀ (ts : Tokens) (t : Term) (rest : List Token),
        Tokens.ofSource source = .ok ts → ¬t.Leads ts.tokens rest) :
      Readings source (.error e) (.error e)
  | single {ts : Tokens} {t : Term}
      (htokens : Tokens.ofSource source = .ok ts)
      (ht : t.Leads ts.tokens []) : Readings source (.ok t) (.ok [t])
  | several {ts : Tokens} {t u : Term} {us : List Term} {first : Token}
      {more : List Token} (htokens : Tokens.ofSource source = .ok ts)
      (ht : t.Leads ts.tokens (first :: more))
      (hmore : allOfTokensFrom [] (first :: more) = .ok (u :: us)) :
      Readings source (.error (.trailingInput first.position))
        (.ok (t :: u :: us))
  /-- There is a fault, and a term in front of it. -/
  | behind {ts : Tokens} {t : Term} {first : Token} {more : List Token}
      {e : SyntaxError} (htokens : Tokens.ofSource source = .ok ts)
      (ht : t.Leads ts.tokens (first :: more))
      (hmore : allOfTokensFrom [] (first :: more) = .error e) :
      Readings source (.error (.trailingInput first.position)) (.error e)

theorem readings_of_leads {source : String} {ts : Tokens} {first : Token}
    {more : List Token} (htokens : Tokens.ofSource source = .ok ts)
    (ht : t.Leads ts.tokens (first :: more)) :
    Readings source (.error (.trailingInput first.position))
      (allOfTokensFrom [] ts.tokens) := by
  rw [ht.allOfTokensFrom]
  cases hmore : Term.allOfTokensFrom [] (first :: more) with
  | error e => exact .behind htokens ht hmore
  | ok us =>
      cases us with
      | nil =>
          have hlexemes := flattenAll_of_allOfTokensFrom hmore
          cases hlexemes
      | cons u us => exact .several htokens ht hmore

theorem readings (source : String) :
    Readings source (ofSource source) (allOfSource source) := by
  rw [ofSource, allOfSource]
  cases htokens : Tokens.ofSource source with
  | error e =>
      refine .fault ?_ ?_
      · intro he
        have hstage := Tokens.stage_of_ofSource htokens
        rw [he] at hstage
        cases hstage
      · intro ts t rest h
        rw [htokens] at h
        cases h
  | ok ts =>
      dsimp only
      rcases hnext : next ts.tokens with ⟨e | t, rest⟩
      · by_cases hnil : ts.tokens = []
        · rw [hnil] at hnext ⊢
          cases hnext
          rw [Term.allOfTokensFrom]
          exact .blank htokens hnil
        · rw [allOfTokensFrom_of_fault hnil hnext]
          refine .fault ?_ ?_
          · intro he
            rw [he] at hnext
            exact hnil (tokens_of_unexpectedEnd hnext)
          · intro ts' t rest' h hleads
            rw [htokens] at h
            cases h
            rw [next_eq_ok_iff.mpr hleads] at hnext
            cases hnext
      · have ht := next_eq_ok_iff.mp hnext
        cases rest with
        | nil =>
            rw [ht.allOfTokensFrom, Term.allOfTokensFrom]
            exact .single htokens ht
        | cons first more => exact readings_of_leads htokens ht

variable {source : String} {one : Except SyntaxError Term}
  {all : Except SyntaxError (List Term)}

theorem Readings.unexpectedEnd_iff (h : Readings source one all) :
    one = .error .unexpectedEnd ↔ all = .ok [] := by
  cases h with
  | blank => exact iff_of_true rfl rfl
  | fault he => exact iff_of_false (fun h => he (Except.error.inj h)) nofun
  | single | several | behind => exact iff_of_false nofun nofun

/-- Of two terms or more the second begins with what is too much behind the
first. -/
theorem Readings.of_two {t u : Term} {us : List Term}
    (h : Readings source one all) (hall : all = .ok (t :: u :: us)) :
    ∃ (ts : Tokens) (first : Token) (more rest : List Token),
      Tokens.ofSource source = .ok ts ∧ t.Leads ts.tokens (first :: more) ∧
        u.Leads (first :: more) rest ∧
        one = .error (.trailingInput first.position) := by
  cases h with
  | blank | fault | single | behind => cases hall
  | @several ts _ _ _ first more htokens ht hmore =>
      cases hall
      obtain ⟨rest, hu⟩ := exists_leads hmore
      exact ⟨ts, first, more, rest, htokens, ht, hu, rfl⟩

/-- Where all terms cannot be read, one cannot either: for the same fault, or
for what follows the first term. -/
theorem Readings.of_error {e : SyntaxError} (h : Readings source one all)
    (hall : all = .error e) :
    ((∀ (ts : Tokens) (t : Term) (rest : List Token),
        Tokens.ofSource source = .ok ts → ¬t.Leads ts.tokens rest) →
      one = .error e) ∧
    ∀ (ts : Tokens) (t : Term) (rest : List Token),
      Tokens.ofSource source = .ok ts → t.Leads ts.tokens rest →
        ∃ first more, rest = first :: more ∧
          allOfTokensFrom [] rest = .error e ∧
          one = .error (.trailingInput first.position) := by
  cases h with
  | blank | single | several => cases hall
  | fault he hnone =>
      cases hall
      refine ⟨fun _ => rfl, fun ts t rest htokens ht => ?_⟩
      exact absurd ht (hnone ts t rest htokens)
  | @behind ts t first more _ htokens ht hmore =>
      cases hall
      refine ⟨fun hnone => ?_, fun ts' t' rest htokens' ht' => ?_⟩
      · exact absurd ht (hnone ts t _ htokens)
      · rw [htokens] at htokens'
        cases htokens'
        obtain ⟨-, rfl⟩ := ht'.unique ht
        exact ⟨first, more, rfl, hmore, rfl⟩

end Term

/-- Running a source that is one term comes to what evaluating it shows. -/
theorem Program.run_shows_as_interpret {source : String} {t : Term}
    (h : Term.ofSource source = .ok t) (depth : Nat) :
    Option.map Value.text <$> run depth source =
      some <$> interpret depth source := by
  rw [run_of_term h, interpret_eq, Run.map_map, Run.map_map]
  rfl

/-! ## The law -/

/-- A source is read as one term if and only if it is read as this term alone,
and lacks a term if and only if it is read as none. If it is read as two or
more, the first token of the second is too much for one. If it is not read as
terms, it is not read as one: for the same fault, unless it has tokens and they
begin with a term; then for the token behind this term, and the fault is one of
the tokens from there on. A source that is one term comes to the same if it is
evaluated and if it is run, at every depth: to a value, shown as its text, to a
failure, or to neither. -/
theorem Term.one_is_first_of_all (source : String) :
    (∀ t, ofSource source = .ok t ↔ allOfSource source = .ok [t]) ∧
    (ofSource source = .error .unexpectedEnd ↔ allOfSource source = .ok []) ∧
    (∀ t u us, allOfSource source = .ok (t :: u :: us) →
      ∃ (ts : Tokens) (first : Token) (more rest : List Token),
        Tokens.ofSource source = .ok ts ∧ t.Leads ts.tokens (first :: more) ∧
          u.Leads (first :: more) rest ∧
          ofSource source = .error (.trailingInput first.position)) ∧
    (∀ e, allOfSource source = .error e →
      (∃ e', ofSource source = .error e') ∧
      ((∀ (ts : Tokens) (t : Term) (rest : List Token),
          Tokens.ofSource source = .ok ts → ¬t.Leads ts.tokens rest) →
        ofSource source = .error e) ∧
      ∀ (ts : Tokens) (t : Term) (rest : List Token),
        Tokens.ofSource source = .ok ts → t.Leads ts.tokens rest →
          ∃ first more, rest = first :: more ∧
            allOfTokensFrom [] rest = .error e ∧
            ofSource source = .error (.trailingInput first.position)) ∧
    ∀ t, ofSource source = .ok t → ∀ depth,
      Option.map Value.text <$> Program.run depth source =
        some <$> Program.interpret depth source := by
  have h := readings source
  refine ⟨fun t => ofSource_iff_allOfSource, h.unexpectedEnd_iff,
    fun t u us => h.of_two, fun e he => ⟨?_, h.of_error he⟩,
    fun t ht => Program.run_shows_as_interpret ht⟩
  -- A source that is read as one term would be read as all of them.
  rw [exists_error_iff]
  intro ⟨t, ht⟩
  rw [ofSource_iff_allOfSource, he] at ht
  cases ht

/-- A term behind a comment, two terms on two lines, a brace too many behind a
term, and one in front of it. -/
theorem Term.first_terms_of_all :
    let a : Term := .symbol "a"
    (allOfSource ";\n\x7ba\x7d" = .ok [.list [a]] ∧
      ofSource ";\n\x7ba\x7d" = .ok (.list [a]) ∧
      ∀ depth, Option.map Value.text <$> Program.run depth ";\n\x7ba\x7d" =
        some <$> Program.interpret depth ";\n\x7ba\x7d") ∧
    (allOfSource "a\n \x7ba\x7d" = .ok [a, .list [a]] ∧
      ofSource "a\n \x7ba\x7d" = .error (.trailingInput ⟨2, 2⟩)) ∧
    (allOfSource "\x7ba\x7d\x7d" = .error (.unexpectedClose ⟨1, 4⟩) ∧
      ofSource "\x7ba\x7d\x7d" = .error (.trailingInput ⟨1, 4⟩)) ∧
    allOfSource "\x7da" = .error (.unexpectedClose ⟨1, 1⟩) ∧
      ofSource "\x7da" = .error (.unexpectedClose ⟨1, 1⟩) := by
  intro a
  have hone : allOfSource ";\n\x7ba\x7d" = .ok [.list [a]] :=
    allOfSource_eq_ok_iff.mpr (by decide +kernel)
  have htwo : allOfSource "a\n \x7ba\x7d" = .ok [a, .list [a]] :=
    allOfSource_eq_ok_iff.mpr (by decide +kernel)
  have htokens₂ : Tokens.ofSource "a\n \x7ba\x7d" = .ok
      ⟨[⟨.atom (.symbol "a"), ⟨1, 1⟩⟩, ⟨.openBrace, ⟨2, 2⟩⟩,
        ⟨.atom (.symbol "a"), ⟨2, 3⟩⟩, ⟨.closeBrace, ⟨2, 4⟩⟩], ⟨2, 5⟩⟩ := by
    decide +kernel
  have htokens₃ : Tokens.ofSource "\x7ba\x7d\x7d" = .ok
      ⟨[⟨.openBrace, ⟨1, 1⟩⟩, ⟨.atom (.symbol "a"), ⟨1, 2⟩⟩,
        ⟨.closeBrace, ⟨1, 3⟩⟩, ⟨.closeBrace, ⟨1, 4⟩⟩], ⟨1, 5⟩⟩ := by
    decide +kernel
  have htokens₄ : Tokens.ofSource "\x7da" = .ok
      ⟨[⟨.closeBrace, ⟨1, 1⟩⟩, ⟨.atom (.symbol "a"), ⟨1, 2⟩⟩], ⟨1, 3⟩⟩ := by
    decide +kernel
  have hbehind : allOfSource "\x7ba\x7d\x7d" =
      .error (.unexpectedClose ⟨1, 4⟩) := by
    rw [allOfSource, htokens₃]
    exact (allOfTokensFrom_of_next (by decide) rfl []).trans
      (allOfTokensFrom_of_fault (by decide) rfl _)
  have hfront : allOfSource "\x7da" = .error (.unexpectedClose ⟨1, 1⟩) := by
    rw [allOfSource, htokens₄]
    exact allOfTokensFrom_of_fault (by decide) rfl []
  obtain ⟨hsingle, -, -, -, hrun⟩ := one_is_first_of_all ";\n\x7ba\x7d"
  obtain ⟨-, -, hseveral, -⟩ := one_is_first_of_all "a\n \x7ba\x7d"
  obtain ⟨-, -, -, hfaults₃, -⟩ := one_is_first_of_all "\x7ba\x7d\x7d"
  obtain ⟨-, -, -, hfaults₄, -⟩ := one_is_first_of_all "\x7da"
  have hread := (hsingle _).mpr hone
  refine ⟨⟨hone, hread, hrun _ hread⟩, ⟨htwo, ?_⟩, ⟨hbehind, ?_⟩, hfront, ?_⟩
  · obtain ⟨ts, first, more, rest, htokens, ht, -, hfault⟩ :=
      hseveral _ _ _ htwo
    rw [htokens₂] at htokens
    cases htokens
    cases next_eq_ok_iff.mpr ht
    exact hfault
  · obtain ⟨first, more, hmore, -, hfault⟩ :=
      (hfaults₃ _ hbehind).2.2 _ (.list [a]) [⟨.closeBrace, ⟨1, 4⟩⟩] htokens₃
        (next_eq_ok_iff.mp rfl)
    cases hmore
    exact hfault
  · refine (hfaults₄ _ hfront).2.1 fun ts t rest htokens ht => ?_
    rw [htokens₄] at htokens
    cases htokens
    cases next_eq_ok_iff.mpr ht

end BraceLisp
