import BraceLisp.SyntaxError
import BraceLisp.Text.Blank
import BraceLisp.Token

/-!
# Cutting a source into tokens

A cursor is a place in a source together with the characters from there on. `Cursor.next` skips
blanks and comments and takes one token; after an error too it leaves a cursor to go on from.

A semicolon begins a comment only where a token could begin: inside a word it is a character like
any other. A word ends before a blank, a brace or a double quote.

`Cursor.next` shortens the rest whenever it takes a token (`Cursor.length_rest_lt_of_next`), which
is why `Cursor.tokens` ends.
-/

namespace BraceLisp

/-- A place in a source and the characters from there on. -/
structure Cursor where
  position : Position
  rest : List Char
deriving DecidableEq, Repr

/-- What one attempt to take a token comes to, and where it leaves off. -/
inductive Step where
  | token (token : Token) (next : Cursor)
  | failed (error : SyntaxError) (next : Cursor)
  /-- Only blanks and comments were left; the cursor is at the end. -/
  | finished (last : Cursor)
deriving DecidableEq, Repr

/-- All tokens of a source, and the place where it ends. -/
structure Tokens where
  tokens : List Token
  finish : Position
deriving DecidableEq, Repr

namespace Cursor

/-- The beginning of a source. -/
def start (source : String) : Cursor := ⟨.start, source.toList⟩

/-- Skips blanks and comments. `comment` says whether `rest` begins inside a comment, which lasts up
to the next line feed. -/
def skipFrom : (comment : Bool) → Position → List Char → Cursor
  | _, p, [] => ⟨p, []⟩
  | true, p, c :: rest => skipFrom (c != '\n') (p.advance c) rest
  | false, p, c :: rest =>
    if Text.isBlank c then skipFrom false (p.advance c) rest
    else if c = ';' then skipFrom true (p.advance c) rest
    else ⟨p, c :: rest⟩

/-- Skips the blanks and comments before the next token. -/
def skip (c : Cursor) : Cursor := skipFrom false c.position c.rest

/-- Whether a character ends a word. -/
def isDelimiter (c : Char) : Bool := Text.isBlank c || c == '{' || c == '}' || c == '"'

/-- Takes a string whose opening quote stood at `opened`: `reversed` holds the contents up to `p`,
where `rest` begins. -/
def stringFrom (opened : Position) : (reversed : List Char) → Position → List Char → Step
  | _, p, [] => .failed (.unterminatedString opened) ⟨p, []⟩
  | _, p, ['\\'] => .failed (.unterminatedString opened) ⟨p.advance '\\', []⟩
  | reversed, p, '\\' :: c :: rest =>
    let next := (p.advance '\\').advance c
    match Text.unescape? c with
    | some d => stringFrom opened (d :: reversed) next rest
    | none => .failed (.unknownEscape c p) ⟨next, rest⟩
  | reversed, p, c :: rest =>
    if c = '"' then
      .token ⟨.atom (.string (String.ofList reversed.reverse)), opened⟩ ⟨p.advance c, rest⟩
    else stringFrom opened (c :: reversed) (p.advance c) rest

/-- Takes a word that begins at `p` with `text`. -/
def word (p : Position) (text : List Char) : Step :=
  let word := text.takeWhile (!isDelimiter ·)
  .token ⟨.atom (.ofWord word), p⟩ ⟨p.advanceAll word, text.dropWhile (!isDelimiter ·)⟩

/-- Takes the next token. -/
def next (c : Cursor) : Step :=
  let c := c.skip
  let p := c.position
  match c.rest with
  | [] => .finished c
  | '{' :: rest => .token ⟨.openBrace, p⟩ ⟨p.advance '{', rest⟩
  | '}' :: rest => .token ⟨.closeBrace, p⟩ ⟨p.advance '}', rest⟩
  | '"' :: rest => stringFrom p [] (p.advance '"') rest
  | text => word p text

/-! ## Progress -/

theorem length_rest_skipFrom_le (comment : Bool) (p : Position) (text : List Char) :
    (skipFrom comment p text).rest.length ≤ text.length := by
  fun_induction skipFrom comment p text with
  | case1 => exact Nat.le_refl _
  | case2 _ _ _ ih => exact Nat.le_succ_of_le ih
  | case3 _ _ _ _ ih => exact Nat.le_succ_of_le ih
  | case4 _ _ _ ih => exact Nat.le_succ_of_le ih
  | case5 => exact Nat.le_refl _

/-- Skipping stops before a character that is neither blank nor the start of a comment. -/
theorem not_blank_of_skipFrom {comment : Bool} {p : Position} {text rest : List Char} {c : Char}
    (h : (skipFrom comment p text).rest = c :: rest) : Text.isBlank c = false ∧ c ≠ ';' := by
  fun_induction skipFrom comment p text with
  | case1 => simp at h
  | case2 _ _ _ ih => exact ih h
  | case3 _ _ _ _ ih => exact ih h
  | case4 _ _ _ ih => exact ih h
  | case5 _ d _ hb hs =>
    simp only [List.cons.injEq] at h
    obtain ⟨rfl, rfl⟩ := h
    exact ⟨by simpa using hb, hs⟩

theorem length_rest_le_of_stringFrom {opened p : Position} {reversed text : List Char}
    {t : Token} {c : Cursor} (h : stringFrom opened reversed p text = .token t c) :
    c.rest.length ≤ text.length := by
  fun_induction stringFrom opened reversed p text with
  | case1 => simp at h
  | case2 => simp at h
  | case3 _ _ _ _ _ _ _ ih => exact Nat.le_succ_of_le (Nat.le_succ_of_le (ih h))
  | case4 => simp at h
  | case5 =>
    simp only [Step.token.injEq] at h
    obtain ⟨-, rfl⟩ := h
    exact Nat.le_succ _
  | case6 _ _ _ _ _ _ _ ih => exact Nat.le_succ_of_le (ih h)

theorem length_dropWhile_le (q : Char → Bool) (text : List Char) :
    (text.dropWhile q).length ≤ text.length :=
  (List.dropWhile_suffix q).length_le

/-- A word that begins with no delimiter is not empty. -/
theorem length_rest_lt_of_word {p : Position} {d : Char} {text : List Char} {t : Token} {c : Cursor}
    (hd : isDelimiter d = false) (h : word p (d :: text) = .token t c) :
    c.rest.length < (d :: text).length := by
  simp only [word, Step.token.injEq] at h
  obtain ⟨-, rfl⟩ := h
  have := length_dropWhile_le (!isDelimiter ·) text
  simp only [List.dropWhile_cons, hd, Bool.not_false, if_true, List.length_cons]
  omega

/-- A token is never empty. -/
theorem length_rest_lt_of_next {c c' : Cursor} {t : Token} (h : c.next = .token t c') :
    c'.rest.length < c.rest.length := by
  have hle := length_rest_skipFrom_le false c.position c.rest
  simp only [next, skip] at h
  split at h
  · simp at h
  · next heq =>
    simp only [Step.token.injEq] at h
    obtain ⟨-, rfl⟩ := h
    simp only [heq, List.length_cons] at hle
    exact hle
  · next heq =>
    simp only [Step.token.injEq] at h
    obtain ⟨-, rfl⟩ := h
    simp only [heq, List.length_cons] at hle
    exact hle
  · next heq =>
    have := length_rest_le_of_stringFrom h
    simp only [heq, List.length_cons] at hle
    omega
  · next hnil hopen hclose hquote =>
    match hrest : (skipFrom false c.position c.rest).rest with
    | [] => exact absurd hrest hnil
    | d :: text =>
      have hblank := (not_blank_of_skipFrom hrest).1
      have hd : isDelimiter d = false := by
        simp only [isDelimiter, hblank, Bool.false_or, Bool.or_eq_false_iff, beq_eq_false_iff_ne]
        refine ⟨⟨?_, ?_⟩, ?_⟩
        · rintro rfl; exact hopen _ hrest
        · rintro rfl; exact hclose _ hrest
        · rintro rfl; exact hquote _ hrest
      rw [hrest] at h hle
      have := length_rest_lt_of_word hd h
      omega

/-! ## The whole source -/

/-- Takes all tokens that are left, behind those already taken. -/
def tokensFrom (reversed : List Token) (c : Cursor) : Except SyntaxError Tokens :=
  match h : c.next with
  | .token t next =>
    have := length_rest_lt_of_next h
    next.tokensFrom (t :: reversed)
  | .failed e _ => .error e
  | .finished last => .ok ⟨reversed.reverse, last.position⟩
termination_by c.rest.length
decreasing_by assumption

end Cursor

/-- The tokens of a source. -/
def Tokens.ofSource (source : String) : Except SyntaxError Tokens :=
  (Cursor.start source).tokensFrom []

end BraceLisp
