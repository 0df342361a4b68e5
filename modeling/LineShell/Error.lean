import LineShell.Text

/-!
The ways in which a command line can be refused. A refusal names its cause and
the text that it is about; its wording is in one place.
-/

namespace LineShell

/-- Why a command line was refused, with the command or the argument that is to
blame. Nothing here is raised while a pipeline runs. -/
inductive ShellError where
  | requiresParameter (command : Text)
  | fileNotFound (command : Text)
  | directoryNotFound (command : Text)
  | requiresInput (command : Text)
  /-- A command that reads no lines stands after another. -/
  | cannotHaveInput (command : Text)
  /-- A command that writes no lines stands before another. -/
  | cannotHaveOutput (command : Text)
  | commandNotFound (command : Text)
  | alreadyLinked (command : Text)
  /-- A job was named by something that is no number. -/
  | invalidJobIndex (index : Text)
  | noSuchJob (position : Nat)
deriving DecidableEq, Repr

namespace ShellError

def subject : ShellError → Text
  | requiresParameter command | fileNotFound command | directoryNotFound command
  | requiresInput command | cannotHaveInput command | cannotHaveOutput command
  | commandNotFound command | alreadyLinked command => command
  | invalidJobIndex index => index
  | noSuchJob position => Text.ofNat position

/-- What stands before and after the subject in the wording of a refusal. -/
def wording : ShellError → String × String
  | requiresParameter _ => ("The command [", "] requires parameter.")
  | fileNotFound _ => ("At least one of the files in the command [", "] was not found.")
  | directoryNotFound _ => ("The directory specified by the command [", "] was not found.")
  | requiresInput _ => ("The command [", "] requires input.")
  | cannotHaveInput _ => ("The command [", "] cannot have an input.")
  | cannotHaveOutput _ => ("The command [", "] cannot have an output.")
  | commandNotFound _ => ("The command [", "] was not found.")
  | alreadyLinked _ => ("The command [", "] is already linked.")
  | invalidJobIndex _ => ("The job index [", "] is not a number.")
  | noSuchJob _ => ("There is no background job number ", ".")

def message (error : ShellError) : Text :=
  error.wording.1.toList ++ error.subject ++ error.wording.2.toList

end ShellError

end LineShell
