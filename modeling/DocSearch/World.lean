import DocSearch.ElementName
import DocSearch.FileTree

/-!
# The world of a run

What a run of the command finds around it: the environment, standard input, where paths lead, and which names
are valid.
-/

namespace DocSearch

structure World where
  env : Text → Option Text := fun _ => none
  /-- All of standard input. -/
  input : Text := []
  lookup : Text → Lookup := fun _ => .missing
  names : NameRule := .ascii

/-- Where a whole text can be read from. -/
inductive Source where
  | standardInput
  | file (path : Text)
  deriving DecidableEq

/-- Why a whole text cannot be read. -/
inductive ReadError where
  | unreadable (path : Text)
  deriving DecidableEq

/-- A hyphen names standard input, everything else a file. -/
def Source.ofArgument (argument : Text) : Source :=
  if argument = ascii "-" then .standardInput else .file argument

def ReadError.message : ReadError → Text
  | unreadable path => ascii "Failed to open file: " ++ path

/-- The whole text of a source. -/
def World.read (w : World) : Source → Except ReadError Text
  | .standardInput => .ok w.input
  | .file path =>
    match w.lookup path with
    | .contents s => .ok s
    | .missing | .inaccessible _ | .unopenable => .error (.unreadable path)

end DocSearch
