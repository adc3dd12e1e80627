/-!
# Quoted text

Inside double quotes a backslash introduces an escape: five characters are written with one, and
every other character stands for itself, line feeds in a source included. Writing escapes all five,
so what is written holds no bare quote, no bare backslash and no line break.
-/

namespace BraceLisp.Text

/-- The character that an escape letter stands for. -/
def unescape? : Char → Option Char
  | 'n' => some '\n'
  | 't' => some '\t'
  | 'r' => some '\r'
  | '\\' => some '\\'
  | '"' => some '"'
  | _ => none

/-- How a character is written between quotes. -/
def escape : Char → List Char
  | '\n' => ['\\', 'n']
  | '\t' => ['\\', 't']
  | '\r' => ['\\', 'r']
  | '\\' => ['\\', '\\']
  | '"' => ['\\', '"']
  | c => [c]

/-- A text in double quotes. -/
def quote (text : List Char) : List Char := '"' :: text.flatMap escape ++ ['"']

end BraceLisp.Text
