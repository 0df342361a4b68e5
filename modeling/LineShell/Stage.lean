import LineShell.Error

/-!
The stages of a pipeline: what each does, and which of them may follow which.
A stage has at most one predecessor and at most one successor.
-/

namespace LineShell

/-- Where a change of directory leads. -/
inductive DirectoryChange where
  | stay
  | up
  | to (path : Text)
deriving DecidableEq, Repr

/-- What a stage does, with its argument. -/
inductive Verb where
  | cat (path : Text)
  | ls
  | pwd
  | cd (change : DirectoryChange)
  | grep (query : Text)
  | uniq
  | wc
  | head
  | tail
  | redirect (path : Text)
  | print
  | exit
deriving DecidableEq, Repr

namespace Verb

def name : Verb → Text
  | cat _ => "cat".toList
  | ls => "ls".toList
  | pwd => "pwd".toList
  | cd _ => "cd".toList
  | grep _ => "grep".toList
  | uniq => "uniq".toList
  | wc => "wc".toList
  | head => "head".toList
  | tail => "tail".toList
  | redirect _ => ">".toList
  | print => "print".toList
  | exit => "exit".toList

/-- Whether a stage with this verb can have a predecessor. -/
def acceptsInput : Verb → Bool
  | cat _ | ls | pwd | cd _ | exit => false
  | grep _ | uniq | wc | head | tail | redirect _ | print => true

/-- Whether a stage with this verb can have a successor. -/
def producesOutput : Verb → Bool
  | cat _ | ls | pwd | grep _ | uniq | wc | head | tail => true
  | cd _ | exit | redirect _ | print => false

/-- Whether a stage with this verb cannot stand first. -/
def requiresInput : Verb → Bool
  | grep _ | uniq | wc | head | tail | redirect _ => true
  | cat _ | ls | pwd | cd _ | print | exit => false

/-- Whether a verb neither reads nor writes lines, so that it stands alone. -/
def isSolitary : Verb → Bool
  | cd _ | exit => true
  | _ => false

end Verb

/-- One stage of a pipeline. -/
structure Stage where
  command : Text
  verb : Verb
  hasInput : Bool := false
  hasOutput : Bool := false
deriving DecidableEq, Repr

namespace Stage

/-- Links two stages, so that the first feeds the second. What the second
refuses is reported before what the first refuses, and a verb that cannot be
linked at all before one that is linked already. -/
def link (first second : Stage) : Except ShellError (Stage × Stage) :=
  if !second.verb.acceptsInput then .error (.cannotHaveInput second.command)
  else if !first.verb.producesOutput then .error (.cannotHaveOutput first.command)
  else if second.hasInput then .error (.alreadyLinked second.command)
  else if first.hasOutput then .error (.alreadyLinked first.command)
  else .ok ({ first with hasOutput := true }, { second with hasInput := true })

/-- Links two different stages of a list, named by their positions. A list that
lacks one of them stays as it is. -/
def attach (stages : List Stage) (first second : Nat) : Except ShellError (List Stage) :=
  match stages[first]?, stages[second]? with
  | some one, some other =>
    (one.link other).map fun (one, other) => (stages.set first one).set second other
  | _, _ => .ok stages

/-- Links a stage to the first of a list, and each of these to the next, from
left to right. -/
def chainOnto (first : Stage) : List Stage → Except ShellError (List Stage)
  | [] => .ok [first]
  | second :: rest =>
    match first.link second with
    | .error error => .error error
    | .ok (first, second) => (chainOnto second rest).map (first :: ·)

/-- Links each stage of a list to the next, from left to right. -/
def chain : List Stage → Except ShellError (List Stage)
  | [] => .ok []
  | first :: rest => chainOnto first rest

end Stage

end LineShell
