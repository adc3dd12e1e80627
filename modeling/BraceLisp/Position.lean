/-!
# Places in a text

Lines and columns count from one. A column counts characters, whatever their width, and only a line
feed ends a line.
-/

namespace BraceLisp

/-- A place in a source text. -/
structure Position where
  line : Nat
  column : Nat
deriving DecidableEq, Repr

namespace Position

/-- The place of the first character. -/
def start : Position := ⟨1, 1⟩

/-- The place behind a character that stands at `p`. -/
def advance (p : Position) (c : Char) : Position :=
  if c = '\n' then ⟨p.line + 1, 1⟩ else ⟨p.line, p.column + 1⟩

/-- The place behind a text that begins at `p`. -/
def advanceAll (p : Position) (text : List Char) : Position := text.foldl advance p

@[simp] theorem advanceAll_nil (p : Position) : p.advanceAll [] = p := rfl

@[simp] theorem advanceAll_cons (p : Position) (c : Char) (text : List Char) :
    p.advanceAll (c :: text) = (p.advance c).advanceAll text := rfl

theorem advanceAll_append (p : Position) (s t : List Char) :
    p.advanceAll (s ++ t) = (p.advanceAll s).advanceAll t :=
  List.foldl_append

/-- A place as it is shown in messages, `LINE:COLUMN`. -/
def text (p : Position) : String := p.line.repr ++ ":" ++ p.column.repr

end Position

end BraceLisp
