import BraceLisp.Shell.Repl

/-!
# The program

Files, streams and the exit status. What is written, and when, is decided by the modules that this
one imports.
-/

namespace BraceLisp.Shell

/-- Writes to the two standard streams. -/
def Output.write (o : Output) : IO Unit := do
  (← IO.getStdout).putStr o.out
  (← IO.getStdout).flush
  (← IO.getStderr).putStr o.err

/-- Why the system could not read or write. -/
def ReadFailure.ofSystem : IO.Error → ReadFailure
  | .noFileOrDirectory .. => .notFound
  | .inappropriateType .. => .isDirectory
  | e => .other (toString e)

/-- The text in a file. -/
def readText (name : String) : IO (Except ReadFailure String) := do
  try
    return decode (← IO.FS.readBinFile name)
  catch e =>
    return .error (.ofSystem e)

/-- The bytes up to the next line feed, behind those already taken; nothing at the end of input. -/
partial def readLine (input : IO.FS.Stream) (taken : ByteArray) : IO (Option ByteArray) := do
  match (← input.read 1).toList with
  | [] => return if taken.isEmpty then none else some taken
  | b :: _ => if b = 10 then return some taken else readLine input (taken.push b)

/-- Answers lines until the input ends, a line asks to leave, a line cannot be read or a line has no
answer. Returns the history, last line first, and how the session ends. -/
partial def converse (input : IO.FS.Stream) (prompt : Bool) (history : List String) :
    IO (List String × Ending) := do
  if prompt then
    (← IO.getStdout).putStr "zhrl> "
    (← IO.getStdout).flush
  match ← readLine input .empty with
  | none => return (history, .left)
  | some bytes =>
    match decode bytes with
    | .error e => return (history, .unreadable e)
    | .ok line =>
      match Entry.ofLine line with
      | .blank => converse input prompt history
      | .quit => return (trimmed line :: history, .left)
      | entry =>
        match entry.respond Program.ampleDepth with
        | none => return (trimmed line :: history, .aborted)
        | some output =>
          output.write
          converse input prompt (trimmed line :: history)

/-- Adds the lines of a session to the history file. -/
def saveHistory (path : String) (history : List String) : IO Unit := do
  try
    let file ← IO.FS.Handle.mk path .append
    for line in history.reverse do
      file.putStrLn line
  catch e =>
    (historyWarning path (.ofSystem e)).write

/-- Writes a report and returns its exit status. -/
def Report.finish (r : Report) : IO UInt8 := do
  r.output.write
  return r.status

/-- Holds a session on the standard streams and returns the exit status. -/
def interact : IO UInt8 := do
  let input ← IO.getStdin
  banner.write
  let (history, ending) ← converse input (← input.isTty) []
  match ending with
  | .unreadable e => Report.finish ⟨readProblem e, 1⟩
  | .aborted => (Report.aborted {}).finish
  | .left =>
    unless history.isEmpty do
      if let some path := historyFile? (← IO.getEnv "HOME") then
        saveHistory path history
    return 0

/-- Does what the arguments ask and returns the exit status. -/
def execute (args : List String) : IO UInt8 :=
  let depth := Program.ampleDepth
  match Command.ofArgs args with
  | .repl => interact
  | .help => (Report.success usage).finish
  | .evaluate source => (Report.ofExpression depth source).finish
  | .file name => do (Report.ofFile depth name (← readText name)).finish
  | .unrecognized => unrecognized.finish

end BraceLisp.Shell

/-- Evaluates an expression, runs a file or holds a session, as the arguments ask. -/
def main (args : List String) : IO UInt32 := do
  return (← BraceLisp.Shell.execute args).toUInt32
