import BraceLisp.Shell.Command
import BraceLisp.Text.Blank

/-!
# The interactive session

The session reads lines until the input ends or a line asks to leave. A line is an expression or a
command; what it writes depends on that line alone. Blanks around a line do not count, so places in
messages are counted from the first character that is not blank. A line whose evaluation exhausts
the stack is never answered: the session aborts there, with the lines before it answered.

Lines that are not blank go into a history, which is saved when the session is left.
-/

namespace BraceLisp.Shell

/-- A line without the blanks around it. -/
def trimmed (line : String) : String := String.ofList (Text.trim line.toList)

/-- What a line asks for. -/
inductive Entry where
  | blank
  | quit
  | names
  | help
  | source (text : String)
deriving DecidableEq, Repr

namespace Entry

/-- What a line asks for. -/
def ofLine (line : String) : Entry :=
  let text := trimmed line
  if text = "" then blank
  else if text = ":quit" ∨ text = ":q" then quit
  else if text = ":env" then names
  else if text = ":help" then help
  else source text

/-- What a line writes, unless its evaluation nests deeper than `depth`. -/
def respond (depth : Nat) : Entry → Option Output
  | blank | quit => some {}
  | names => some (.line (" ".intercalate Env.top.names))
  | help => some (
    .line "Enter an expression such as \x7b+ 1 2\x7d to evaluate it." ++
    .line "  :env    list top-level names" ++
    .line "  :help   show this message" ++
    .line "  :quit   leave the REPL (also :q or Ctrl-D)")
  | source text =>
    match (Program.interpret depth text).outcome with
    | .value result => some (.line result)
    | .error e => some (.errorLine e.line)
    | .exhausted => none

end Entry

/-- What a session opens with. -/
def banner : Output :=
  .line "ZHRL REPL" ++ .line "Type :help for commands, :quit to exit" ++ .line ""

/-- How a session ends: it is left, it meets a line that cannot be read, or it is broken off by a
line whose evaluation exhausts the stack. -/
inductive Ending where
  | left
  | unreadable (cause : ReadFailure)
  | aborted
deriving DecidableEq, Repr

/-- The course of a session: what its lines write, whether any line went into the history, and how
it ends. -/
structure Transcript where
  output : Output
  recorded : Bool
  ending : Ending

/-- The course of a session over lines, each of which may have turned out unreadable. -/
def Transcript.ofLines (depth : Nat) : List (Except ReadFailure String) → Transcript
  | [] => ⟨{}, false, .left⟩
  | .error e :: _ => ⟨{}, false, .unreadable e⟩
  | .ok line :: rest =>
    match Entry.ofLine line with
    | .blank => ofLines depth rest
    | .quit => ⟨{}, true, .left⟩
    | entry =>
      match entry.respond depth with
      | none => ⟨{}, true, .aborted⟩
      | some output =>
        let t := ofLines depth rest
        { t with output := output ++ t.output, recorded := true }

/-- What is said when a line cannot be read. -/
def readProblem (e : ReadFailure) : Output := .errorLine ("Failed to read input: " ++ e.message)

/-- What is said when the history cannot be saved. -/
def historyWarning (path : String) (e : ReadFailure) : Output :=
  .errorLine ("Warning: could not save history to " ++ path ++ ": " ++ e.message)

/-- The file that holds the history of a user with the given home directory, if there is one. -/
def historyFile? : (home : Option String) → Option String
  | none => none
  | some home =>
    if home = "" then none
    else if home.toList.getLast? = some '/' then some (home ++ ".zhrl_history")
    else some (home ++ "/.zhrl_history")

/-- The report of a session. `unsaved` is the path of the history and the reason if it cannot be
saved; only a session that is left tries to. -/
def Transcript.report (t : Transcript) (unsaved : Option (String × ReadFailure)) : Report :=
  match t.ending with
  | .unreadable e => ⟨banner ++ t.output ++ readProblem e, 1⟩
  | .aborted => .aborted (banner ++ t.output)
  | .left =>
    match unsaved with
    | some (path, e) =>
      .success (banner ++ t.output ++ if t.recorded then historyWarning path e else {})
    | none => .success (banner ++ t.output)

/-- Splits an input into lines. The last line may lack its line end. -/
def splitLines {α : Type} [BEq α] (lineEnd : α) (input : List α) : List (List α) :=
  let lines := input.splitOn lineEnd
  if lines.getLast? matches some [] then lines.dropLast else lines

/-- The lines of a text. -/
def linesOfText (input : String) : List (Except ReadFailure String) :=
  (splitLines '\n' input.toList).map fun line => .ok (String.ofList line)

/-- The lines of an input of bytes, each decoded on its own. -/
def linesOfBytes (input : ByteArray) : List (Except ReadFailure String) :=
  (splitLines 10 input.toList).map fun line => decode ⟨line.toArray⟩

end BraceLisp.Shell
