import BraceLisp.Proofs.NumberText
import BraceLisp.Token.Cursor

/-!
# One token after another

What `Cursor.next` takes from texts of which the beginning is known: a brace, a
quoted text, a bare word with a delimiter behind it. A run of the lexer is then
followed from token to token (`Cursor.tokensFrom_of_next`).

What a bare word is depends on the word alone: a number if it is a literal, and
else a symbol, which is why symbols are `Lexable`.
-/

namespace BraceLisp

/-! ## Quoted text -/

namespace Text

/-- The letters that may follow a backslash, and what they stand for. -/
def escapes : List (Char × Char) :=
  [('n', '\n'), ('t', '\t'), ('r', '\r'), ('\\', '\\'), ('"', '"')]

theorem escape_cases (c : Char) :
    (∃ e, escape c = ['\\', e] ∧ unescape? e = some c) ∨
      escape c = [c] ∧ c ≠ '\\' ∧ c ≠ '"' := by
  unfold escape
  split
  · exact .inl ⟨'n', rfl, rfl⟩
  · exact .inl ⟨'t', rfl, rfl⟩
  · exact .inl ⟨'r', rfl, rfl⟩
  · exact .inl ⟨'\\', rfl, rfl⟩
  · exact .inl ⟨'"', rfl, rfl⟩
  · next hbackslash hquote => exact .inr ⟨rfl, hbackslash, hquote⟩

/-- What may stand between quotes, and the contents that it stands for. -/
inductive Quoted : List Char → List Char → Prop where
  | nil : Quoted [] []
  | plain {c : Char} {body contents : List Char} (hbackslash : c ≠ '\\')
      (hquote : c ≠ '"') (h : Quoted body contents) :
      Quoted (c :: body) (c :: contents)
  | escape {e c : Char} {body contents : List Char} (hc : (e, c) ∈ escapes)
      (h : Quoted body contents) : Quoted ('\\' :: e :: body) (c :: contents)

theorem unescape?_eq_some_iff {e c : Char} :
    unescape? e = some c ↔ (e, c) ∈ escapes := by
  unfold unescape?
  split
  case h_6 hn ht hr hbackslash hquote =>
    simp [escapes, show e ≠ 'n' from hn, show e ≠ 't' from ht,
      show e ≠ 'r' from hr, show e ≠ '\\' from hbackslash,
      show e ≠ '"' from hquote]
  all_goals simp [escapes, eq_comm]

/-- What is written between quotes stands for the text. -/
theorem quoted_flatMap_escape (text : List Char) :
    Quoted (text.flatMap escape) text := by
  induction text with
  | nil => exact .nil
  | cons c text ih =>
      rw [List.flatMap_cons]
      rcases escape_cases c with ⟨e, he, hc⟩ | ⟨he, hbackslash, hquote⟩
      · rw [he]
        exact .escape (unescape?_eq_some_iff.mp hc) ih
      · rw [he]
        exact .plain hbackslash hquote ih

end Text

namespace Cursor

theorem stringFrom_escape (opened p : Position) (reversed : List Char)
    {e c : Char} (rest : List Char) (h : Text.unescape? e = some c) :
    stringFrom opened reversed p ('\\' :: e :: rest) =
      stringFrom opened (c :: reversed) ((p.advance '\\').advance e) rest := by
  rw [stringFrom]
  simp only [h]

theorem stringFrom_plain (opened p : Position) (reversed : List Char)
    {c : Char} (rest : List Char) (hbackslash : c ≠ '\\') (hquote : c ≠ '"') :
    stringFrom opened reversed p (c :: rest) =
      stringFrom opened (c :: reversed) (p.advance c) rest := by
  rw [stringFrom]
  · rw [if_neg hquote]
  · exact fun h => absurd h hbackslash
  · exact fun _ _ h => absurd h hbackslash

theorem stringFrom_quoted (opened p : Position) (reversed : List Char)
    {body contents : List Char} (h : Text.Quoted body contents)
    (rest : List Char) :
    stringFrom opened reversed p (body ++ '"' :: rest) =
      .token ⟨.atom (.string (String.ofList (reversed.reverse ++ contents))),
          opened⟩
        ⟨(p.advanceAll body).advance '"', rest⟩ := by
  induction h generalizing p reversed with
  | nil =>
      rw [List.nil_append, stringFrom]
      · rw [if_pos rfl, List.append_nil]
        rfl
      · exact fun h => absurd h (by decide)
      · exact fun _ _ h => absurd h (by decide)
  | plain hbackslash hquote _ ih =>
      rw [List.cons_append, stringFrom_plain opened p reversed _ hbackslash
        hquote, ih, List.reverse_cons, List.append_assoc]
      rfl
  | escape hc _ ih =>
      rw [List.cons_append, List.cons_append, stringFrom_escape opened p
        reversed _ (Text.unescape?_eq_some_iff.mpr hc), ih, List.reverse_cons,
        List.append_assoc]
      rfl

/-! ## The next token -/

theorem skip_eq_self {p : Position} {text : List Char}
    (h : ∀ c ∈ text.head?, Text.isBlank c = false ∧ c ≠ ';') :
    skip ⟨p, text⟩ = ⟨p, text⟩ := by
  match text with
  | [] => rfl
  | c :: text =>
      obtain ⟨hblank, hsemicolon⟩ := h c rfl
      show skipFrom false p (c :: text) = _
      rw [skipFrom, if_neg (by rw [hblank]; decide), if_neg hsemicolon]

theorem next_openBrace (p : Position) (text : List Char) :
    next ⟨p, '{' :: text⟩ = .token ⟨.openBrace, p⟩ ⟨p.advance '{', text⟩ := by
  unfold next
  rw [skip_eq_self (by rintro c ⟨⟩; decide)]
  rfl

theorem next_closeBrace (p : Position) (text : List Char) :
    next ⟨p, '}' :: text⟩ = .token ⟨.closeBrace, p⟩ ⟨p.advance '}', text⟩ := by
  unfold next
  rw [skip_eq_self (by rintro c ⟨⟩; decide)]
  rfl

theorem next_quoted (p : Position) {body contents : List Char}
    (h : Text.Quoted body contents) (rest : List Char) :
    next ⟨p, '"' :: (body ++ ['"']) ++ rest⟩ =
      .token ⟨.atom (.string (String.ofList contents)), p⟩
        ⟨p.advanceAll ('"' :: (body ++ ['"'])), rest⟩ := by
  have htext : '"' :: (body ++ ['"']) ++ rest = '"' :: (body ++ '"' :: rest) := by
    simp
  have hend : p.advanceAll ('"' :: (body ++ ['"'])) =
      ((p.advance '"').advanceAll body).advance '"' := by
    rw [Position.advanceAll_cons, Position.advanceAll_append]
    rfl
  unfold next
  rw [htext, skip_eq_self (by rintro c ⟨⟩; decide), hend]
  exact stringFrom_quoted p _ [] h rest

end Cursor

/-- A text that is one bare word: not empty, without blanks, braces and quotes,
and not beginning like a comment. -/
structure BareWord (word : List Char) : Prop where
  ne_nil : word ≠ []
  not_delimiter : ∀ c ∈ word,
    Text.isBlank c = false ∧ c ≠ '{' ∧ c ≠ '}' ∧ c ≠ '"'
  not_comment : word.head? ≠ some ';'

/-- A text that is read as a symbol: a bare word that is no number. -/
structure Lexable (name : List Char) : Prop extends BareWord name where
  not_literal : ¬Decimal.Literal name

namespace Cursor

theorem isDelimiter_eq_false {c : Char} : isDelimiter c = false ↔
    Text.isBlank c = false ∧ c ≠ '{' ∧ c ≠ '}' ∧ c ≠ '"' := by
  simp only [isDelimiter, Bool.or_eq_false_iff, beq_eq_false_iff_ne, and_assoc]

theorem next_word (p : Position) {text rest : List Char} (h : BareWord text)
    (hrest : Stops (fun c => !isDelimiter c) rest) :
    next ⟨p, text ++ rest⟩ =
      .token ⟨.atom (.ofWord text), p⟩ ⟨p.advanceAll text, rest⟩ := by
  obtain ⟨hne, hdelimiter, hcomment⟩ := h
  have hword : word p (text ++ rest) =
      .token ⟨.atom (.ofWord text), p⟩ ⟨p.advanceAll text, rest⟩ := by
    have hall : ∀ c ∈ text, !isDelimiter c := fun c hc => by
      rw [isDelimiter_eq_false.mpr (hdelimiter c hc)]
      rfl
    rw [word, takeWhile_append_of_stops hall hrest,
      dropWhile_append_of_stops hall hrest]
  obtain ⟨c, text, rfl⟩ := List.exists_cons_of_ne_nil hne
  obtain ⟨hblank, hopen, hclose, hquote⟩ := hdelimiter c List.mem_cons_self
  have hskip : skip ⟨p, c :: text ++ rest⟩ = ⟨p, c :: text ++ rest⟩ := by
    apply skip_eq_self
    rintro d ⟨⟩
    exact ⟨hblank, fun h => hcomment (by rw [h]; rfl)⟩
  unfold next
  rw [hskip, ← hword]
  dsimp only
  split
  · next heq => cases heq
  · next heq => cases heq; exact absurd rfl hopen
  · next heq => cases heq; exact absurd rfl hclose
  · next heq => cases heq; exact absurd rfl hquote
  · rfl

/-! ## A run of the lexer -/

theorem tokensFrom_eq (reversed : List Token) (c : Cursor) :
    c.tokensFrom reversed = match c.next with
      | .token t next => next.tokensFrom (t :: reversed)
      | .failed e _ => .error e
      | .finished last => .ok ⟨reversed.reverse, last.position⟩ := by
  rw [tokensFrom]
  split
  · next h => simp only [h]
  · next h => simp only [h]
  · next h => simp only [h]

theorem tokensFrom_of_next {c c' : Cursor} {t : Token}
    (h : c.next = .token t c') (reversed : List Token) :
    c.tokensFrom reversed = c'.tokensFrom (t :: reversed) := by
  rw [tokensFrom_eq, h]

theorem tokensFrom_nil (p : Position) (reversed : List Token) :
    tokensFrom reversed ⟨p, []⟩ = .ok ⟨reversed.reverse, p⟩ := by
  rw [tokensFrom_eq]
  rfl

end Cursor

/-! ## What tokens are like -/

/-- An atom that could be in a source: a symbol is one because it could not be
anything else, and no number is a NaN. -/
def Atom.Readable : Atom → Prop
  | number x => x.isNaN = false
  | string _ => True
  | symbol name => Lexable name.toList

def Lexeme.All (P : Atom → Prop) : Lexeme → Prop
  | atom a => P a
  | _ => True

theorem bareWord_of_all {word : List Char} (hne : word ≠ [])
    (hall : word.all (!Cursor.isDelimiter ·))
    (hcomment : word.head? ≠ some ';') : BareWord word := by
  refine ⟨hne, fun c hc => Cursor.isDelimiter_eq_false.mp ?_, hcomment⟩
  have h := List.all_eq_true.mp hall c hc
  simpa using h

theorem BareWord.lexable {word : List Char} (h : BareWord word)
    (hnone : Decimal.ofChars? word = none) : Lexable word := by
  refine ⟨h, fun hliteral => ?_⟩
  have hsome := Decimal.isSome_ofChars?.mpr hliteral
  rw [hnone] at hsome
  cases hsome

theorem Atom.ofWord_of_lexable {word : List Char} (h : Lexable word) :
    ofWord word = .symbol (String.ofList word) := by
  have hnone : Decimal.ofChars? word = none := by
    rw [← Option.not_isSome_iff_eq_none, Decimal.isSome_ofChars?]
    exact h.not_literal
  rw [ofWord, hnone]

namespace Cursor

theorem bareWord_takeWhile {c : Char} {text : List Char}
    (hc : isDelimiter c = false) (hcomment : c ≠ ';') :
    BareWord ((c :: text).takeWhile (!isDelimiter ·)) := by
  refine bareWord_of_all ?_ List.all_takeWhile ?_
  · rw [List.takeWhile_cons_of_pos (by rw [hc]; rfl)]
    exact List.cons_ne_nil _ _
  · rw [List.takeWhile_cons_of_pos (by rw [hc]; rfl)]
    intro h
    cases h
    exact hcomment rfl

end Cursor

end BraceLisp
