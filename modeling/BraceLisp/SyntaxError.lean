import BraceLisp.Position

/-!
# Ill-formed sources

Why a text is not a program: it has no tokens, its groups do not balance, or a group is not one of
the forms of the language.
-/

namespace BraceLisp

/-- Why a source is rejected before anything is evaluated. -/
inductive SyntaxError where
  /-- A closing brace that no group is open for. -/
  | unexpectedClose (place : Position)
  /-- The source ends inside the group that was opened here. -/
  | unclosedGroup (opened : Position)
  /-- The source ends inside the string that was opened here. -/
  | unterminatedString (opened : Position)
  /-- A backslash, standing here, before a character that has no escape. -/
  | unknownEscape (escape : Char) (place : Position)
  /-- A term was wanted and the source has no more. -/
  | unexpectedEnd
  /-- One term was wanted and this token follows it. -/
  | trailingInput (place : Position)
  | malformedIf
  | malformedLam
  | malformedVar
  | duplicateParameter (name : String)
  | reservedWord (name : String)
  /-- A parameter that is not a symbol, as it is printed. -/
  | invalidParameter (text : String)
  /-- A group that holds nothing. -/
  | emptyApplication
deriving DecidableEq, Repr

namespace SyntaxError

/-- What is wrong, in words. -/
def message : SyntaxError → String
  | unexpectedClose p => "unexpected '\x7d' at " ++ p.text
  | unclosedGroup p => "unclosed '\x7b' opened at " ++ p.text
  | unterminatedString p => "unterminated string starting at " ++ p.text
  | unknownEscape c p => "unknown escape sequence \\" ++ c.toString ++ " at " ++ p.text
  | unexpectedEnd => "unexpected end of input"
  | trailingInput p => "unexpected input after expression at " ++ p.text
  | malformedIf => "malformed if"
  | malformedLam => "malformed lam"
  | malformedVar => "malformed var"
  | duplicateParameter name => "duplicate parameter `" ++ name ++ "`"
  | reservedWord name => "reserved word `" ++ name ++ "` used as an identifier"
  | invalidParameter text => "invalid parameter `" ++ text ++ "`, expected a symbol"
  | emptyApplication => "empty application `\x7b\x7d`"

end SyntaxError

end BraceLisp
