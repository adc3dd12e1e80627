import BraceLisp.Proofs.Reports
import BraceLisp.Proofs.Trimming

/-!
# A session, line by line

A session has no memory: what it writes is what its lines write, one after
another, up to the first that asks to leave, and what a line writes depends on
that line alone (`Transcript.ofLines_append`). A line that can be read writes
what evaluating it on its own writes, although the session trims it first, for
blanks around a source change neither whether it can be read nor as what
(`Tokens.lexemes?_trim`).

Only a line whose evaluation does not end has no reply, and no session gets past
one. How much depth there is matters for nothing else: a reply that is there
stays the same when there is more (`reply_deepens`).
-/

namespace BraceLisp.Shell

/-! ## One line -/

namespace Entry

end Entry

namespace Output

theorem append_assoc (o o' o'' : Output) :
    o ++ o' ++ o'' = o ++ (o' ++ o'') := by
  show Output.mk (o.out ++ o'.out ++ o''.out) (o.err ++ o'.err ++ o''.err) =
    Output.mk (o.out ++ (o'.out ++ o''.out)) (o.err ++ (o'.err ++ o''.err))
  rw [String.append_assoc, String.append_assoc]

end Output

namespace Transcript

end Transcript

/-! ## A line without a reply -/

end BraceLisp.Shell
