import LineShell.Shell

/-!
A shell in conversation: for each line, whether to read on and what to tell the
user.
-/

namespace LineShell

/-- What follows from a line. -/
inductive Flow where
  /-- The next line is read, after some text if there is any. -/
  | proceed (text : Option Text)
  | failed (message : Text)
  | exit
deriving DecidableEq, Repr

namespace Dialogue

def jobLine (job : JobInfo) : Text :=
  '\t' :: Text.ofNat job.position ++ ". ".toList ++ job.command ++ " &".toList

/-- The job listing, as a user sees it; an empty one is no text at all. -/
def jobListing : List JobInfo → Option Text
  | [] => none
  | jobs => some (Text.joinWith '\n' (jobs.map jobLine))

def flow : Except ShellError Outcome → Flow
  | .ok .exit => .exit
  | .ok (.jobs listing) => .proceed (jobListing listing)
  | .ok _ => .proceed none
  | .error error => .failed error.message

def processLine (shell : Shell) (line : Text) : Shell × Flow :=
  let (shell, outcome) := shell.execute line
  (shell, flow outcome)

def shutdown (shell : Shell) : Shell :=
  shell.waitBackground.1

end Dialogue

end LineShell
