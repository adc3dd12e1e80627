import BraceLisp.Proofs.LexicalGrammar

/-!
# The lexer, call after call

A lexer is asked for one token after another, and goes on after a fault. What one
call can come to is said once, by `Cursor.Scans`: a token, a string that the
source ends in, an escape that there is none of, or the end. Only strings fail,
and the text behind an opening quote settles how: its contents go on up to a
`Text.Break`, where they are closed, cut off or wrong (`Text.exists_break`).

Whatever a call comes to, it uses up a text from the front of what was left, and
its cursor stands behind that text (`Cursor.Scans.used`). So does the cursor
behind any number of calls (`Cursor.precedes_onward`).
-/

namespace BraceLisp

/-! ## Where a string breaks off -/

namespace Text

/-- Where the contents of a string are over: at a quote, at the end of the
source, perhaps with a backslash that nothing follows, or at an escape that
stands for no character. -/
inductive Break : List Char → Prop where
  | quote (rest : List Char) : Break ('"' :: rest)
  | finish : Break []
  | backslash : Break ['\\']
  | unknown {e : Char} (h : unescape? e = none) (rest : List Char) :
      Break ('\\' :: e :: rest)

theorem exists_break (text : List Char) :
    ∃ body contents tail, text = body ++ tail ∧ Quoted body contents ∧
      Break tail := by
  match text with
  | [] => exact ⟨[], [], [], rfl, .nil, .finish⟩
  | c :: text =>
      by_cases hquote : c = '"'
      · subst hquote
        exact ⟨[], [], _, rfl, .nil, .quote text⟩
      by_cases hbackslash : c = '\\'
      · subst hbackslash
        match text with
        | [] => exact ⟨[], [], _, rfl, .nil, .backslash⟩
        | e :: text =>
            cases he : unescape? e with
            | none => exact ⟨[], [], _, rfl, .nil, .unknown he text⟩
            | some d =>
                obtain ⟨body, contents, tail, rfl, hbody, htail⟩ :=
                  exists_break text
                exact ⟨'\\' :: e :: body, d :: contents, tail, rfl,
                  .escape (unescape?_eq_some_iff.mp he) hbody, htail⟩
      · obtain ⟨body, contents, tail, rfl, hbody, htail⟩ := exists_break text
        exact ⟨c :: body, c :: contents, tail, rfl,
          .plain hbackslash hquote hbody, htail⟩

end Text

namespace Cursor

/-- The contents of a string are taken as they are, up to where they break
off. -/
theorem stringFrom_append (opened p : Position) (reversed : List Char)
    {body contents : List Char} (h : Text.Quoted body contents)
    (tail : List Char) :
    stringFrom opened reversed p (body ++ tail) =
      stringFrom opened (contents.reverse ++ reversed) (p.advanceAll body)
        tail := by
  induction h generalizing p reversed with
  | nil => rfl
  | plain hbackslash hquote _ ih =>
      rw [List.cons_append, stringFrom_plain opened p reversed _ hbackslash
        hquote, ih]
      simp
  | escape hc _ ih =>
      rw [List.cons_append, List.cons_append, stringFrom_escape opened p
        reversed _ (Text.unescape?_eq_some_iff.mpr hc), ih]
      simp

theorem stringFrom_unknown (opened p : Position) (reversed : List Char)
    {e : Char} (he : Text.unescape? e = none) (rest : List Char) :
    stringFrom opened reversed p ('\\' :: e :: rest) =
      .failed (.unknownEscape e p) ⟨(p.advance '\\').advance e, rest⟩ := by
  rw [stringFrom]
  simp only [he]

end Cursor

/-! ## One call -/

theorem Position.advanceAll_snoc (p : Position) (text : List Char) (c : Char) :
    p.advanceAll (text ++ [c]) = (p.advanceAll text).advance c :=
  advanceAll_append p text [c]

namespace Cursor

/-- What a call can come to in front of a text that begins at `p`. -/
inductive Scans (p : Position) : List Char → Step → Prop where
  | token {w text rest : List Char} {l : Lexeme}
      (hw : Separator (text ++ rest) w) (hl : l.Spelled text)
      (hstops : l.isWord → Stops (fun c => !isDelimiter c) rest) :
      Scans p (w ++ (text ++ rest))
        (.token ⟨l, p.advanceAll w⟩ ⟨p.advanceAll (w ++ text), rest⟩)
  /-- The source ends in a string, perhaps right behind a backslash. -/
  | unterminated {w body contents tail : List Char}
      (hw : Separator ('"' :: (body ++ tail)) w)
      (hbody : Text.Quoted body contents) (htail : tail = [] ∨ tail = ['\\']) :
      Scans p (w ++ '"' :: (body ++ tail))
        (.failed (.unterminatedString (p.advanceAll w))
          ⟨p.advanceAll (w ++ '"' :: (body ++ tail)), []⟩)
  /-- An escape in a string stands for no character. -/
  | unknownEscape {w body contents rest : List Char} {e : Char}
      (hw : Separator ('"' :: (body ++ '\\' :: e :: rest)) w)
      (hbody : Text.Quoted body contents) (he : Text.unescape? e = none) :
      Scans p (w ++ '"' :: (body ++ '\\' :: e :: rest))
        (.failed (.unknownEscape e (p.advanceAll (w ++ '"' :: body)))
          ⟨p.advanceAll (w ++ '"' :: (body ++ ['\\', e])), rest⟩)
  | finished {w : List Char} (hw : Separator [] w) :
      Scans p w (.finished ⟨p.advanceAll w, []⟩)

/-- The lexer fails in strings only. -/
theorem quote_of_next {c c' : Cursor} {e : SyntaxError}
    (h : c.next = .failed e c') : ∃ text, c.skip.rest = '"' :: text := by
  unfold next at h
  dsimp only at h
  split at h
  · cases h
  · cases h
  · cases h
  · next text htext => exact ⟨text, htext⟩
  · cases h

theorem next_quote (p : Position) (text : List Char) :
    next ⟨p, '"' :: text⟩ = stringFrom p [] (p.advance '"') text := by
  unfold next
  rw [skip_eq_self (by intro c hc; cases hc; decide)]
  rfl

theorem scans_of_failed {c c' : Cursor} {e : SyntaxError}
    (h : c.next = .failed e c') : Scans c.position c.rest (.failed e c') := by
  obtain ⟨p, all⟩ := c
  obtain ⟨text, htext⟩ := quote_of_next h
  obtain ⟨w, hrest, hw⟩ := separator_of_skip ⟨p, all⟩
  rw [htext] at hrest hw
  dsimp only at hrest ⊢
  subst hrest
  obtain ⟨body, contents, tail, rfl, hbody, htail⟩ := Text.exists_break text
  rw [next_separator hw, next_quote, stringFrom_append _ _ _ hbody] at h
  have hplace : ((p.advanceAll w).advance '"').advanceAll body =
      p.advanceAll (w ++ '"' :: body) := by
    rw [Position.advanceAll_append, Position.advanceAll_cons]
  rw [hplace] at h
  cases htail with
  | quote rest =>
      rw [← List.nil_append ('"' :: rest), stringFrom_quoted _ _ _ .nil] at h
      cases h
  | finish =>
      rw [stringFrom] at h
      cases h
      have hscan := Scans.unterminated (p := p) hw hbody (.inl rfl)
      rw [List.append_nil] at hscan ⊢
      exact hscan
  | backslash =>
      rw [stringFrom] at h
      cases h
      rw [← Position.advanceAll_snoc, List.append_assoc, List.cons_append]
      exact .unterminated hw hbody (.inr rfl)
  | unknown he rest =>
      rw [stringFrom_unknown _ _ _ he] at h
      cases h
      rw [← Position.advanceAll_snoc, ← Position.advanceAll_snoc,
        List.append_assoc, List.append_assoc, List.cons_append]
      exact .unknownEscape hw hbody he

/-- A call fails in front of a string: the source ends in it, or an escape in it
stands for no character. -/
theorem next_eq_failed {c c' : Cursor} {e : SyntaxError}
    (h : c.next = .failed e c') :
    (∃ w body contents tail, c.rest = w ++ '"' :: (body ++ tail) ∧
        Separator ('"' :: (body ++ tail)) w ∧ Text.Quoted body contents ∧
        (tail = [] ∨ tail = ['\\']) ∧ c'.rest = [] ∧
        e = .unterminatedString (c.position.advanceAll w)) ∨
      ∃ w body contents x, c.rest = w ++ '"' :: (body ++ '\\' :: x :: c'.rest) ∧
        Separator ('"' :: (body ++ '\\' :: x :: c'.rest)) w ∧
        Text.Quoted body contents ∧ Text.unescape? x = none ∧
        e = .unknownEscape x (c.position.advanceAll (w ++ '"' :: body)) := by
  have hscan := scans_of_failed h
  generalize c.position = p, c.rest = text at hscan ⊢
  cases hscan with
  | @unterminated w body contents tail hw hbody htail =>
      exact .inl ⟨w, body, contents, tail, rfl, hw, hbody, htail, rfl, rfl⟩
  | @unknownEscape w body contents rest x hw hbody hx =>
      exact .inr ⟨w, body, contents, x, rfl, hw, hbody, hx, rfl⟩

/-- Every call comes to one of these. -/
theorem scans_next (c : Cursor) : Scans c.position c.rest c.next := by
  cases h : c.next with
  | token t c' =>
      obtain ⟨w, text, hrest, hw, hl, hstops, hplace, hc'⟩ :=
        next_eq_token_iff.mp h
      obtain ⟨l, p⟩ := t
      obtain ⟨q, rest⟩ := c'
      dsimp only at *
      subst hplace hc'
      rw [hrest, ← Position.advanceAll_append]
      exact .token hw hl hstops
  | failed e c' => exact scans_of_failed h
  | finished last =>
      obtain ⟨hw, rfl⟩ := next_eq_finished_iff.mp h
      exact .finished hw

end Cursor

/-! ## Any number of calls -/

/-- The cursor that a call leaves, whatever it comes to. -/
def Step.cursor : Step → Cursor
  | token _ c | failed _ c | finished c => c

namespace Cursor

/-- The cursor behind so many calls, whatever they come to. -/
def onward (c : Cursor) : Nat → Cursor
  | 0 => c
  | n + 1 => (c.onward n).next.cursor

theorem onward_add (c : Cursor) (m n : Nat) :
    c.onward (m + n) = (c.onward m).onward n := by
  induction n with
  | zero => rfl
  | succ n ih => rw [← Nat.add_assoc, onward, onward, ih]

/-- A cursor behind another: a text has been used up on the way. -/
def Precedes (c d : Cursor) : Prop :=
  ∃ used, c.rest = used ++ d.rest ∧ d.position = c.position.advanceAll used

theorem Precedes.refl (c : Cursor) : c.Precedes c := ⟨[], rfl, rfl⟩

theorem Precedes.trans {c d e : Cursor} (hcd : c.Precedes d) (hde : d.Precedes e) :
    c.Precedes e := by
  obtain ⟨s, hc, hd⟩ := hcd
  obtain ⟨t, hd', he⟩ := hde
  refine ⟨s ++ t, ?_, ?_⟩
  · rw [hc, hd', List.append_assoc]
  · rw [he, hd, Position.advanceAll_append]

theorem Scans.used {p : Position} {text : List Char} {s : Step}
    (h : Scans p text s) : Precedes ⟨p, text⟩ s.cursor := by
  cases h with
  | @token w text rest =>
      exact ⟨w ++ text, (List.append_assoc w text rest).symm, rfl⟩
  | unterminated | finished => exact ⟨_, (List.append_nil _).symm, rfl⟩
  | @unknownEscape w body contents rest e =>
      exact ⟨w ++ '"' :: (body ++ ['\\', e]), by simp [Step.cursor], rfl⟩

theorem precedes_next (c : Cursor) : c.Precedes c.next.cursor :=
  (scans_next c).used

theorem precedes_onward (c : Cursor) (n : Nat) : c.Precedes (c.onward n) := by
  induction n with
  | zero => exact .refl c
  | succ n ih => exact ih.trans (precedes_next _)

end Cursor

end BraceLisp
