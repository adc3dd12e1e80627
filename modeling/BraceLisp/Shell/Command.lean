import BraceLisp.Program
import BraceLisp.Shell.Output

/-!
# One-shot commands

Evaluating an expression from the command line, running a file, and the usage text. A one-shot
command either succeeds and writes to standard output only, or fails and writes one line to standard
error only, unless its evaluation exhausts the stack and it aborts; the usage text goes to standard
error in any case.
-/

namespace BraceLisp.Shell

/-- What the arguments of the program ask for. -/
inductive Command where
  | repl
  | help
  | evaluate (source : String)
  | file (name : String)
  | unrecognized
deriving DecidableEq, Repr

/-- The command that the arguments ask for. A single argument that begins with a dash and is no
option is never taken for a file. -/
def Command.ofArgs : List String → Command
  | [] => repl
  | [arg] =>
    if arg = "--help" ∨ arg = "-h" then help
    else if arg.toList.head? = some '-' then unrecognized
    else file arg
  | [flag, source] => if flag = "-e" then evaluate source else unrecognized
  | _ => unrecognized

/-- How to call the program. -/
def usage : Output :=
  .errorLine "Usage:" ++
  .errorLine "  zhrl                Start interactive REPL" ++
  .errorLine "  zhrl <file.zhrl>    Run a program file and print its last value" ++
  .errorLine "  zhrl -e <expr>      Evaluate one expression" ++
  .errorLine "  zhrl --help         Show this help message"

/-- The report for arguments that ask for nothing known. -/
def unrecognized : Report := ⟨.errorLine "Error: unrecognized arguments" ++ usage, 1⟩

/-- Why a text cannot be read from a file or a stream. -/
inductive ReadFailure where
  | notFound
  | isDirectory
  | notText
  | other (reason : String)
deriving DecidableEq, Repr

/-- What went wrong, in the words of the system. -/
def ReadFailure.message : ReadFailure → String
  | notFound => "No such file or directory (os error 2)"
  | isDirectory => "Is a directory (os error 21)"
  | notText => "stream did not contain valid UTF-8"
  | other reason => reason

/-- The report of an evaluation: its value, if it has one to show, on a line. -/
def Report.ofOutcome : Outcome Error (Option String) → Report
  | .value (some text) => success (.line text)
  | .value none => success {}
  | .error e => failure e.line
  | .exhausted => aborted {}

/-- The report of evaluating the expression given on the command line. -/
def Report.ofExpression (depth : Nat) (source : String) : Report :=
  .ofOutcome (some <$> Program.interpret depth source).outcome

/-- The report of running the program in a file, given what reading the file came to. -/
def Report.ofFile (depth : Nat) (name : String) : (contents : Except ReadFailure String) → Report
  | .error e => .failure ("Failed to read file '" ++ name ++ "': " ++ e.message)
  | .ok source => .ofOutcome (Option.map Value.text <$> Program.run depth source).outcome

/-- The text that bytes encode. -/
def decode (bytes : ByteArray) : Except ReadFailure String :=
  match String.fromUTF8? bytes with
  | some text => .ok text
  | none => .error .notText

end BraceLisp.Shell
