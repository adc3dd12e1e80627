import BraceLisp.Failure

/-!
# What a command writes
-/

namespace BraceLisp.Shell

/-- Text for standard output and text for standard error. -/
structure Output where
  out : String := ""
  err : String := ""
deriving DecidableEq, Repr

namespace Output

instance : Append Output := ⟨fun a b => ⟨a.out ++ b.out, a.err ++ b.err⟩⟩

/-- A line on standard output. -/
def line (text : String) : Output := { out := text ++ "\n" }

/-- A line on standard error. -/
def errorLine (text : String) : Output := { err := text ++ "\n" }

end Output

/-- What a finished command leaves behind. -/
structure Report where
  output : Output
  status : UInt8
deriving DecidableEq, Repr

namespace Report

/-- The report of a command that succeeded. -/
def success (output : Output) : Report := ⟨output, 0⟩

/-- The report of a command that failed, given the reason. -/
def failure (reason : String) : Report := ⟨.errorLine reason, 1⟩

/-- The report of a command that is broken off because an evaluation nests deeper than there is room
for on the host's stack. Nothing guards against that: what was written before stays, the program
writes no more, and the status is the one that a shell gives to a process that aborts. What the host
itself may say of it is left out. -/
def aborted (written : Output) : Report := ⟨written, 134⟩

end Report

end BraceLisp.Shell

namespace BraceLisp

/-- The line that tells a user of a failure: the stage that failed, then the message. -/
def Error.line (e : Error) : String :=
  match e with
  | .illFormed _ => "Parse error: " ++ e.message
  | .runtime _ => "Error: " ++ e.message

end BraceLisp
