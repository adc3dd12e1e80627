import BraceLisp.Program
import BraceLisp.Proofs.Lexing
import BraceLisp.Proofs.Reading

/-!
# The lexical grammar

A source is lexemes with separators between them and at both ends. `Written`
says so with no lexer in sight: each lexeme in one of its spellings, each
separator made of blanks and comments. Only behind a word does the separator
matter: it must not go on with a character that the word would take in, and
between two words there must be one.

The lexer accepts exactly these sources, and finds in each the lexemes that it
was written with. In one direction the text of a separator is skipped whatever
follows it (`Cursor.skip_separator`), and the text of a lexeme is taken if what
follows does not go on with it (`Cursor.next_spelled`), which is what the
condition on separators comes to (`Written.stops`). In the other direction one
step of the lexer is undone by `Cursor.spelled_of_next`. Together they say what
one step is, places included (`Cursor.next_eq_token_iff`).
-/

namespace BraceLisp

/-! ## The grammar -/

/-- Blanks and comments in front of `rest`. A comment lasts up to a line feed or
to the end of the source; the line feed itself is a blank. -/
inductive Separator (rest : List Char) : List Char → Prop where
  | nil : Separator rest []
  | blank {c : Char} {w : List Char} (hc : Text.isBlank c)
      (hw : Separator rest w) : Separator rest (c :: w)
  | comment {body w : List Char} (hbody : '\n' ∉ body)
      (hend : ∀ c ∈ (w ++ rest).head?, c = '\n') (hw : Separator rest w) :
      Separator rest (';' :: (body ++ w))

namespace Lexeme

/-- The texts that a lexeme has in sources. -/
inductive Spelled : Lexeme → List Char → Prop where
  | openBrace : Spelled openBrace ['{']
  | closeBrace : Spelled closeBrace ['}']
  | string {body contents : List Char} (h : Text.Quoted body contents) :
      Spelled (atom (.string (String.ofList contents)))
        ('"' :: (body ++ ['"']))
  | number {word : List Char} {d : Decimal} (hword : BareWord word)
      (hd : Decimal.ofChars? word = some d) :
      Spelled (atom (.number d.toFloat)) word
  | symbol {word : List Char} (h : Lexable word) :
      Spelled (atom (.symbol (String.ofList word))) word

/-- Whether the lexeme is a bare word. -/
def isWord : Lexeme → Bool
  | atom (.number _) | atom (.symbol _) => true
  | _ => false

end Lexeme

/-- The separator is empty or begins with a blank, so it may stand behind a
word. -/
def Parts (w : List Char) : Prop := ∀ c ∈ w.head?, Text.isBlank c

/-- A text of separators and lexemes in turn, a separator at either end.
`afterWord` says whether a word stands directly in front of the text. -/
inductive Written : (afterWord : Bool) → List Char → List Lexeme → Prop where
  | finish {afterWord : Bool} {w : List Char} (hw : Separator [] w)
      (hparts : afterWord → Parts w) : Written afterWord w []
  | lexeme {afterWord : Bool} {w text rest : List Char} {l : Lexeme}
      {ls : List Lexeme} (hw : Separator (text ++ rest) w)
      (hparts : afterWord → Parts w) (hapart : afterWord → l.isWord → w ≠ [])
      (hl : l.Spelled text) (hrest : Written l.isWord rest ls) :
      Written afterWord (w ++ (text ++ rest)) (l :: ls)

/-! ## What is written is read -/

namespace Cursor

theorem skipFrom_comment {body rest : List Char} (hbody : '\n' ∉ body)
    (hrest : ∀ c ∈ rest.head?, c = '\n') (p : Position) :
    skipFrom true p (body ++ rest) = skipFrom false (p.advanceAll body) rest := by
  induction body generalizing p with
  | nil =>
      match rest with
      | [] => rfl
      | c :: rest =>
          obtain rfl := hrest c rfl
          have hblank : Text.isBlank '\n' = true := by decide
          rw [List.nil_append, skipFrom, Position.advanceAll_nil, skipFrom,
            if_pos hblank]
          rfl
  | cons c body ih =>
      rw [List.mem_cons, not_or] at hbody
      have hc : (c != '\n') = true := bne_iff_ne.mpr (Ne.symm hbody.1)
      rw [List.cons_append, skipFrom, hc, ih hbody.2]
      rfl

theorem skip_separator {rest w : List Char} (h : Separator rest w)
    (p : Position) : skip ⟨p, w ++ rest⟩ = skip ⟨p.advanceAll w, rest⟩ := by
  induction h generalizing p with
  | nil => rfl
  | blank hc _ ih =>
      rw [List.cons_append, skip, skipFrom, if_pos hc]
      exact ih _
  | @comment body w hbody hend _ ih =>
      have hsemicolon : Text.isBlank ';' = false := by decide
      rw [List.cons_append, List.append_assoc, skip, skipFrom, hsemicolon,
        if_neg Bool.false_ne_true, if_pos rfl, skipFrom_comment hbody hend,
        Position.advanceAll_cons, Position.advanceAll_append]
      exact ih _

theorem next_separator {rest w : List Char} (h : Separator rest w)
    (p : Position) : next ⟨p, w ++ rest⟩ = next ⟨p.advanceAll w, rest⟩ := by
  unfold next
  rw [skip_separator h]

theorem tokensFrom_separator {rest w : List Char} (h : Separator rest w)
    (p : Position) (reversed : List Token) :
    tokensFrom reversed ⟨p, w ++ rest⟩ =
      tokensFrom reversed ⟨p.advanceAll w, rest⟩ := by
  rw [tokensFrom_eq, tokensFrom_eq, next_separator h]

theorem next_spelled {l : Lexeme} {text rest : List Char} (h : l.Spelled text)
    (hrest : l.isWord → Stops (fun c => !isDelimiter c) rest) (p : Position) :
    next ⟨p, text ++ rest⟩ = .token ⟨l, p⟩ ⟨p.advanceAll text, rest⟩ := by
  cases h with
  | openBrace => exact next_openBrace p rest
  | closeBrace => exact next_closeBrace p rest
  | string h => exact next_quoted p h rest
  | number hword hd =>
      rw [next_word p hword (hrest rfl), Atom.ofWord, hd]
  | symbol h =>
      rw [next_word p h.toBareWord (hrest rfl), Atom.ofWord_of_lexable h]

end Cursor

theorem Lexeme.Spelled.ne_nil {l : Lexeme} {text : List Char}
    (h : l.Spelled text) : text ≠ [] := by
  cases h with
  | openBrace | closeBrace | string => exact List.cons_ne_nil _ _
  | number h => exact h.ne_nil
  | symbol h => exact h.ne_nil

theorem Lexeme.Spelled.stops {l : Lexeme} {text : List Char}
    (h : l.Spelled text) (hword : l.isWord = false) (rest : List Char) :
    Stops (fun c => !Cursor.isDelimiter c) (text ++ rest) := by
  cases h with
  | openBrace => exact .cons rfl
  | closeBrace => exact .cons rfl
  | string => exact .cons rfl
  | number => cases hword
  | symbol => cases hword

theorem Parts.stops {w rest : List Char} (h : Parts w)
    (hrest : w = [] → Stops (fun c => !Cursor.isDelimiter c) rest) :
    Stops (fun c => !Cursor.isDelimiter c) (w ++ rest) := by
  match w with
  | [] => exact hrest rfl
  | c :: w =>
      have hblank : Text.isBlank c = true := h c rfl
      exact .cons (by rw [Cursor.isDelimiter, hblank]; rfl)

/-- Whatever may be written behind a word does not go on with it. -/
theorem Written.stops {text : List Char} {ls : List Lexeme}
    (h : Written true text ls) :
    Stops (fun c => !Cursor.isDelimiter c) text := by
  cases h with
  | finish _ hparts =>
      rw [← List.append_nil text]
      exact (hparts rfl).stops fun _ => .nil
  | @lexeme _ w text rest l ls _ hparts hapart hl _ =>
      refine (hparts rfl).stops fun hw => hl.stops ?_ rest
      exact Bool.eq_false_iff.mpr fun hword => hapart rfl hword hw

theorem Cursor.tokensFrom_written {afterWord : Bool} {text : List Char}
    {ls : List Lexeme} (h : Written afterWord text ls) (p : Position)
    (reversed : List Token) :
    ∃ ts, tokensFrom reversed ⟨p, text⟩ = .ok ts ∧
      ts.lexemes = reversed.reverse.map Token.lexeme ++ ls := by
  induction h generalizing p reversed with
  | @finish _ w hw _ =>
      have hread := tokensFrom_separator hw p reversed
      rw [List.append_nil, tokensFrom_nil] at hread
      exact ⟨_, hread, (List.append_nil _).symm⟩
  | @lexeme _ w text rest l ls hw _ _ hl hrest ih =>
      have hstops : l.isWord → Stops (fun c => !isDelimiter c) rest := by
        intro hword
        rw [hword] at hrest
        exact hrest.stops
      obtain ⟨ts, hread, hts⟩ := ih ((p.advanceAll w).advanceAll text)
        (⟨l, p.advanceAll w⟩ :: reversed)
      refine ⟨ts, ?_, ?_⟩
      · rw [tokensFrom_separator hw,
          tokensFrom_of_next (next_spelled hl hstops _), hread]
      · rw [hts, List.reverse_cons, List.map_append, List.append_assoc]
        rfl

/-! ## What is read is written -/

namespace Cursor

theorem separator_of_skipFrom (comment : Bool) (p : Position)
    (text : List Char) :
    ∃ body w, text = body ++ (w ++ (skipFrom comment p text).rest) ∧
      Separator (skipFrom comment p text).rest w ∧ '\n' ∉ body ∧
      (if comment then
        ∀ c ∈ (w ++ (skipFrom comment p text).rest).head?, c = '\n'
      else body = []) := by
  fun_induction skipFrom comment p text with
  | case1 comment p =>
      refine ⟨[], [], rfl, .nil, List.not_mem_nil, ?_⟩
      split
      · rintro c ⟨⟩
      · rfl
  | case2 p c text ih =>
      obtain ⟨body, w, htext, hw, hbody, hend⟩ := ih
      by_cases hc : c = '\n'
      · -- The comment ends here, and the line feed is a blank behind it.
        subst hc
        obtain rfl : body = [] := hend
        exact ⟨[], '\n' :: w, congrArg (List.cons '\n') htext,
          .blank rfl hw, List.not_mem_nil, by rintro c ⟨⟩; rfl⟩
      · rw [if_pos (bne_iff_ne.mpr hc)] at hend
        refine ⟨c :: body, w, congrArg (List.cons c) htext, hw, ?_, hend⟩
        rw [List.mem_cons, not_or]
        exact ⟨Ne.symm hc, hbody⟩
  | case3 p c text hc ih =>
      obtain ⟨body, w, htext, hw, hbody, hnil⟩ := ih
      obtain rfl : body = [] := hnil
      exact ⟨[], c :: w, congrArg (List.cons c) htext, .blank hc hw,
        List.not_mem_nil, rfl⟩
  | case4 p text _ ih =>
      obtain ⟨body, w, htext, hw, hbody, hend⟩ := ih
      refine ⟨[], ';' :: (body ++ w), ?_, .comment hbody hend hw,
        List.not_mem_nil, rfl⟩
      rw [List.nil_append, List.cons_append, List.append_assoc, ← htext]
  | case5 p c text =>
      exact ⟨[], [], rfl, .nil, List.not_mem_nil, rfl⟩

/-- What is skipped is a separator. -/
theorem separator_of_skip (c : Cursor) :
    ∃ w, c.rest = w ++ c.skip.rest ∧ Separator c.skip.rest w := by
  obtain ⟨body, w, htext, hw, -, hnil⟩ :=
    separator_of_skipFrom false c.position c.rest
  obtain rfl : body = [] := hnil
  exact ⟨w, htext, hw⟩

theorem quoted_of_stringFrom {opened p : Position}
    {reversed text : List Char} {t : Token} {c : Cursor}
    (h : stringFrom opened reversed p text = .token t c) :
    ∃ body contents, text = body ++ '"' :: c.rest ∧
      Text.Quoted body contents ∧
      t.lexeme = .atom (.string (String.ofList (reversed.reverse ++ contents))) := by
  fun_induction stringFrom opened reversed p text with
  | case1 => cases h
  | case2 => cases h
  | case3 reversed p e text next d hd ih =>
      obtain ⟨body, contents, rfl, hbody, ht⟩ := ih h
      refine ⟨'\\' :: e :: body, d :: contents, rfl,
        .escape (Text.unescape?_eq_some_iff.mp hd) hbody, ?_⟩
      rw [ht, List.reverse_cons, List.append_assoc]
      rfl
  | case4 => cases h
  | case5 reversed p text =>
      cases h
      exact ⟨[], [], rfl, .nil, by rw [List.append_nil]⟩
  | case6 reversed p d text hlast hbackslash hquote ih =>
      obtain ⟨body, contents, rfl, hbody, ht⟩ := ih h
      have hplain : d ≠ '\\' := by
        intro hd
        obtain ⟨e, text, htext⟩ := List.exists_cons_of_ne_nil
          (List.append_ne_nil_of_right_ne_nil body
            (List.cons_ne_nil '"' c.rest))
        exact hbackslash e text hd htext
      refine ⟨d :: body, d :: contents, rfl, .plain hplain hquote hbody, ?_⟩
      rw [ht, List.reverse_cons, List.append_assoc]
      rfl

end Cursor

theorem Lexeme.Spelled.ofWord {word : List Char} (h : BareWord word) :
    Spelled (.atom (.ofWord word)) word := by
  rw [Atom.ofWord]
  split
  · next hd => exact .number h hd
  · next hnone => exact .symbol (h.lexable hnone)

namespace Cursor

theorem stops_dropWhile (q : Char → Bool) (text : List Char) :
    Stops q (text.dropWhile q) := by
  intro c hc
  have h := List.head?_dropWhile_not q text
  rw [hc] at h
  exact h

/-- The character at which the lexer finds a word begins one. -/
theorem not_delimiter_of_next {c : Cursor} {d : Char} {text : List Char}
    (htext : c.skip.rest = d :: text) (hopen : d ≠ '{') (hclose : d ≠ '}')
    (hquote : d ≠ '"') : isDelimiter d = false ∧ d ≠ ';' := by
  obtain ⟨hblank, hcomment⟩ := not_blank_of_skipFrom htext
  exact ⟨isDelimiter_eq_false.mpr ⟨hblank, hopen, hclose, hquote⟩, hcomment⟩

/-- A token that is taken is the text behind a separator, and does not go on
behind that text. -/
theorem spelled_of_next {c c' : Cursor} {t : Token}
    (h : c.next = .token t c') :
    ∃ w text, c.rest = w ++ (text ++ c'.rest) ∧
      Separator (text ++ c'.rest) w ∧ t.lexeme.Spelled text ∧
      (t.lexeme.isWord → Stops (fun c => !isDelimiter c) c'.rest) := by
  obtain ⟨w, hrest, hw⟩ := separator_of_skip c
  suffices hlexeme : ∃ text, c.skip.rest = text ++ c'.rest ∧
      t.lexeme.Spelled text ∧
      (t.lexeme.isWord → Stops (fun c => !isDelimiter c) c'.rest) by
    obtain ⟨text, htext, hl, hstops⟩ := hlexeme
    rw [htext] at hrest hw
    exact ⟨w, text, hrest, hw, hl, hstops⟩
  unfold next at h
  dsimp only at h
  split at h
  · cases h
  · next htext => cases h; exact ⟨['{'], htext, .openBrace, nofun⟩
  · next htext => cases h; exact ⟨['}'], htext, .closeBrace, nofun⟩
  · next htext =>
      obtain ⟨body, contents, rfl, hbody, ht⟩ := quoted_of_stringFrom h
      refine ⟨'"' :: (body ++ ['"']), ?_, ?_, ?_⟩
      · rw [htext]
        simp
      · rw [ht]
        exact .string hbody
      · rw [ht]
        exact nofun
  · next hnil hopen hclose hquote =>
      obtain ⟨d, text, htext⟩ := List.exists_cons_of_ne_nil hnil
      rw [htext] at h hopen hclose hquote
      obtain ⟨hd, hcomment⟩ := not_delimiter_of_next htext
        (by rintro rfl; exact hopen _ rfl) (by rintro rfl; exact hclose _ rfl)
        (by rintro rfl; exact hquote _ rfl)
      cases h
      rw [htext]
      exact ⟨_, List.takeWhile_append_dropWhile.symm,
        .ofWord (bareWord_takeWhile hd hcomment),
        fun _ => stops_dropWhile _ _⟩

theorem stringFrom_ne_finished (opened p : Position)
    (reversed text : List Char) (last : Cursor) :
    stringFrom opened reversed p text ≠ .finished last := by
  intro h
  fun_induction stringFrom opened reversed p text with
  | case1 | case2 | case4 | case5 => cases h
  | case3 _ _ _ _ _ _ _ ih => exact ih h
  | case6 _ _ _ _ _ _ _ ih => exact ih h

theorem separator_of_next {c last : Cursor} (h : c.next = .finished last) :
    Separator [] c.rest := by
  obtain ⟨w, hrest, hw⟩ := separator_of_skip c
  have hnil : c.skip.rest = [] := by
    unfold next at h
    dsimp only at h
    split at h
    · next htext => exact htext
    · cases h
    · cases h
    · exact absurd h (stringFrom_ne_finished _ _ _ _ _)
    · cases h
  rw [hnil, List.append_nil] at hrest
  rw [hrest, ← hnil]
  exact hw

/-! ## One step of the lexer -/

/-- A token is taken if and only if a separator, a spelling of its lexeme and
nothing that goes on with it come next. Its place is behind the separator. -/
theorem next_eq_token_iff {c c' : Cursor} {t : Token} :
    c.next = .token t c' ↔
      ∃ w text, c.rest = w ++ (text ++ c'.rest) ∧
        Separator (text ++ c'.rest) w ∧ t.lexeme.Spelled text ∧
        (t.lexeme.isWord → Stops (fun c => !isDelimiter c) c'.rest) ∧
        t.position = c.position.advanceAll w ∧
        c'.position = t.position.advanceAll text := by
  obtain ⟨p, _⟩ := c
  obtain ⟨q, rest⟩ := c'
  obtain ⟨l, r⟩ := t
  dsimp only
  constructor
  · intro h
    obtain ⟨w, text, rfl, hw, hl, hstops⟩ := spelled_of_next h
    rw [next_separator hw, next_spelled hl hstops] at h
    cases h
    exact ⟨w, text, rfl, hw, hl, hstops, rfl, rfl⟩
  · rintro ⟨w, text, rfl, hw, hl, hstops, rfl, rfl⟩
    rw [next_separator hw, next_spelled hl hstops]

/-- The end is reached if and only if a separator is all that is left. -/
theorem next_eq_finished_iff {c last : Cursor} :
    c.next = .finished last ↔
      Separator [] c.rest ∧ last = ⟨c.position.advanceAll c.rest, []⟩ := by
  have hnext : Separator [] c.rest →
      c.next = .finished ⟨c.position.advanceAll c.rest, []⟩ := by
    intro hw
    have hseparator := next_separator hw c.position
    rw [List.append_nil] at hseparator
    exact hseparator
  constructor
  · intro h
    have hw := separator_of_next h
    rw [hnext hw] at h
    cases h
    exact ⟨hw, rfl⟩
  · rintro ⟨hw, rfl⟩
    exact hnext hw

end Cursor

theorem Separator.parts {rest w : List Char} (h : Separator rest w)
    (hstops : Stops (fun c => !Cursor.isDelimiter c) (w ++ rest)) :
    Parts w := by
  cases h with
  | nil => rintro c ⟨⟩
  | blank hc => rintro c ⟨⟩; exact hc
  | comment => exact absurd (hstops ';' rfl) (by decide)

theorem Lexeme.Spelled.not_word {l : Lexeme} {text : List Char}
    (h : l.Spelled text) {rest : List Char}
    (hstops : Stops (fun c => !Cursor.isDelimiter c) (text ++ rest)) :
    ¬l.isWord := by
  have hword : BareWord text → False := by
    rintro ⟨hne, hdelimiter, -⟩
    obtain ⟨c, text, rfl⟩ := List.exists_cons_of_ne_nil hne
    have hc : (!Cursor.isDelimiter c) = false := hstops c rfl
    rw [Cursor.isDelimiter_eq_false.mpr (hdelimiter c List.mem_cons_self)] at hc
    cases hc
  cases h with
  | openBrace | closeBrace | string => exact Bool.false_ne_true
  | number h => exact fun _ => hword h
  | symbol h => exact fun _ => hword h.toBareWord

/-- A text that does not go on with a word may be written behind one. -/
theorem Written.afterWord {text : List Char} {ls : List Lexeme}
    (h : Written false text ls)
    (hstops : Stops (fun c => !Cursor.isDelimiter c) text) :
    Written true text ls := by
  cases h with
  | finish hw _ =>
      refine .finish hw fun _ => hw.parts ?_
      rwa [List.append_nil]
  | lexeme hw _ _ hl hrest =>
      refine .lexeme hw (fun _ => hw.parts hstops) (fun _ hword => ?_) hl hrest
      rintro rfl
      exact hl.not_word hstops hword

theorem Cursor.written_of_tokensFrom {c : Cursor} {reversed : List Token}
    {ts : Tokens} (h : c.tokensFrom reversed = .ok ts) :
    ∃ ls, ts.lexemes = reversed.reverse.map Token.lexeme ++ ls ∧
      Written false c.rest ls := by
  fun_induction tokensFrom reversed c with
  | case1 reversed c t next hnext _ ih =>
      obtain ⟨ls, hts, hwritten⟩ := ih h
      obtain ⟨w, text, hrest, hw, hl, hstops⟩ := spelled_of_next hnext
      refine ⟨t.lexeme :: ls, ?_, ?_⟩
      · rw [hts, List.reverse_cons, List.map_append, List.append_assoc]
        rfl
      · have hbehind : Written t.lexeme.isWord next.rest ls := by
          cases hword : t.lexeme.isWord with
          | false => exact hwritten
          | true => exact hwritten.afterWord (hstops hword)
        rw [hrest]
        exact .lexeme hw nofun nofun hl hbehind
  | case2 => cases h
  | case3 reversed c last hnext =>
      cases h
      exact ⟨[], (List.append_nil _).symm,
        .finish (separator_of_next hnext) nofun⟩

/-- The lexer finds the lexemes that the rest of a text is written with. -/
theorem Cursor.written_iff_tokensFrom (c : Cursor) (ls : List Lexeme) :
    Written false c.rest ls ↔
      ∃ ts, c.tokensFrom [] = .ok ts ∧ ts.lexemes = ls := by
  constructor
  · exact fun h => tokensFrom_written h c.position []
  · rintro ⟨ts, h, rfl⟩
    obtain ⟨ls, hts, hwritten⟩ := written_of_tokensFrom h
    rw [hts]
    exact hwritten

/-- A source has the lexemes that it is written with. -/
theorem Tokens.lexemes?_eq_some_iff_written {source : String}
    {ls : List Lexeme} :
    lexemes? source = some ls ↔ Written false source.toList ls := by
  rw [lexemes?_eq_some_iff]
  exact (Cursor.written_iff_tokensFrom ⟨.start, source.toList⟩ ls).symm

/-! ## Writing -/

theorem Written.join {l : Lexeme} {text rest : List Char} {ls : List Lexeme}
    (hl : l.Spelled text) (hrest : Written l.isWord rest ls) :
    Written false (text ++ rest) (l :: ls) :=
  .lexeme .nil nofun nofun hl hrest

/-- What may stand behind a word may stand anywhere. -/
theorem Written.anywhere {text : List Char} {ls : List Lexeme}
    (h : Written true text ls) (afterWord : Bool) :
    Written afterWord text ls := by
  cases h with
  | finish hw hparts => exact .finish hw fun _ => hparts rfl
  | lexeme hw hparts hapart hl hrest =>
      exact .lexeme hw (fun _ => hparts rfl) (fun _ => hapart rfl) hl hrest

/-- Behind a blank anything may be written. -/
theorem Written.blank {c : Char} {text : List Char} {ls : List Lexeme}
    (hc : Text.isBlank c) (h : Written false text ls) :
    Written true (c :: text) ls := by
  have hparts : ∀ w, Parts (c :: w) := by
    rintro w d ⟨⟩
    exact hc
  cases h with
  | finish hw _ => exact .finish (.blank hc hw) fun _ => hparts _
  | lexeme hw _ _ hl hrest =>
      exact .lexeme (.blank hc hw) (fun _ => hparts _)
        (fun _ _ => List.cons_ne_nil _ _) hl hrest

theorem Lexeme.Spelled.readable {l : Lexeme} {text : List Char}
    (h : l.Spelled text) : l.All Atom.Readable := by
  cases h with
  | openBrace | closeBrace | string => trivial
  | number _ _ => exact Number.isNaN_toFloat _
  | symbol h =>
      show Lexable (String.ofList text).toList
      rwa [String.toList_ofList]

/-- Every lexeme of a source is readable. -/
theorem Written.readable {afterWord : Bool} {text : List Char}
    {ls : List Lexeme} (h : Written afterWord text ls) :
    ∀ l ∈ ls, l.All Atom.Readable := by
  induction h with
  | finish => exact nofun
  | lexeme _ _ _ hl _ ih => exact List.forall_mem_cons.mpr ⟨hl.readable, ih⟩

/-! ## The law -/

/-- A source has tokens if and only if it is written by the lexical grammar, and
then they are the lexemes that it is written with, which are the same whichever
way it is taken apart. So two sources that differ in separators and comments, or
in the spelling of lexemes, have the same lexemes. If all terms of the one can
be read, so can those of the other, and they are the same; if the one is read as
a single term, both are the same expression and run alike. -/
theorem Tokens.ofSource_accepts_written (source : String) :
    (∀ ls, (∃ ts, ofSource source = .ok ts ∧ ts.lexemes = ls) ↔
        Written false source.toList ls) ∧
      (∀ ls ms, Written false source.toList ls →
        Written false source.toList ms → ls = ms) ∧
      ∀ source' ls, Written false source.toList ls →
        Written false source'.toList ls →
        lexemes? source' = lexemes? source ∧
        (∀ terms, Term.allOfSource source = .ok terms →
          Term.allOfSource source' = .ok terms) ∧
        ∀ t, Term.ofSource source = .ok t →
          Expr.ofSource source' = Expr.ofSource source ∧
          ∀ depth, Program.interpret depth source' =
            Program.interpret depth source := by
  refine ⟨fun ls => ?_, fun ls ms hl hm => ?_, fun source' ls h h' => ?_⟩
  · rw [← lexemes?_eq_some_iff, lexemes?_eq_some_iff_written]
  · rw [← lexemes?_eq_some_iff_written] at hl hm
    exact Option.some.inj (hl.symm.trans hm)
  · rw [← lexemes?_eq_some_iff_written] at h h'
    have hsame : lexemes? source' = lexemes? source := h'.trans h.symm
    refine ⟨hsame, fun terms hterms => ?_, fun t ht => ?_⟩
    · rwa [Term.allOfSource_eq_ok_iff, hsame, ← Term.allOfSource_eq_ok_iff]
    · have ht' : Term.ofSource source' = .ok t := by
        rwa [Term.ofSource_eq_ok_iff, hsame, ← Term.ofSource_eq_ok_iff]
      have hexpr : Expr.ofSource source' = Expr.ofSource source := by
        rw [Expr.ofSource, Expr.ofSource, ht, ht']
      refine ⟨hexpr, fun depth => ?_⟩
      rw [Program.interpret, Program.interpret, Program.eval, Program.eval,
        hexpr]

/-- A call, once without a separator that could be left out, and once with
comments: behind a word one must be set apart, behind a string not, and the
last ends with the source. -/
theorem Tokens.call_without_separators :
    let source := "\x7bf;g \"a\"\"\\n\"x\x7d"
    let source' := "; \x7d\n\x7b\tf;g\"a\";b\n\"\\n\" x ;y\n\x7d;"
    let t : Term := .list [.symbol "f;g", .atom (.string "a"),
      .atom (.string "\n"), .symbol "x"]
    Written false source.toList t.flatten ∧
      Written false source'.toList t.flatten ∧
      Term.ofSource source = .ok t ∧
      Expr.ofSource source' = Expr.ofSource source := by
  intro source source' t
  have h : Written false source.toList t.flatten :=
    lexemes?_eq_some_iff_written.mp (by decide +kernel)
  have h' : Written false source'.toList t.flatten :=
    lexemes?_eq_some_iff_written.mp (by decide +kernel)
  obtain ⟨hiff, -, hsame⟩ := ofSource_accepts_written source
  have ht : Term.ofSource source = .ok t := by
    rw [Term.ofSource_eq_ok_iff, lexemes?_eq_some_iff]
    exact (hiff _).mpr h
  exact ⟨h, h', ht, ((hsame source' _ h h').2.2 t ht).1⟩

end BraceLisp
