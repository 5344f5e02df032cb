import DocSearch.Command

/-!
# The program

The command line program: it looks up what a run may need, and carries out its outcome.
-/

namespace DocSearch

namespace Program

def textOf (s : String) : Text := s.toUTF8.toList

def write (stream : IO.FS.Stream) (s : Text) : IO Unit := do
  stream.write ⟨s.toArray⟩
  stream.flush

/-- The words for an error on the way along a path; the codes are those of the system below zero. -/
def reason : IO.Error → String
  | .permissionDenied .. => "Permission denied"
  | .invalidArgument _ code _ =>
    if code + 36 = 0 then "File name too long" else "Too many levels of symbolic links"
  | e => toString e

/-- Where a path leads.  Reading a directory gives the error 21, and it reads as empty.  What cannot be read is there
if its path resolves.  Only paths in UTF-8 can be asked for, and another one is refused. -/
def lookup (path : Text) : IO Lookup := do
  match String.fromUTF8? ⟨path.toArray⟩ with
  | none => throw (IO.userError "a path is not in UTF-8")
  | some name =>
    try
      return .contents (← IO.FS.readBinFile name).toList
    catch
      | .noFileOrDirectory .. => return .missing
      | .inappropriateType _ code _ => return if code = 21 then .contents [] else .missing
      | e =>
        try
          discard (IO.FS.realPath name)
          return .unopenable
        catch _ => return .inaccessible (textOf (reason e))

partial def readAll (stream : IO.FS.Stream) (read : ByteArray) : IO ByteArray := do
  let chunk ← stream.read 65536
  if chunk.isEmpty then return read else readAll stream (read ++ chunk)

/-- The variables that the location of the configuration file depends on. -/
def environment : IO (List (Text × Text)) := do
  let found ← ["CTSQ_CONFIG", "XDG_CONFIG_HOME", "HOME"].mapM fun v => do
    return (← IO.getEnv v).map fun value => (textOf v, textOf value)
  return found.filterMap id

/-- What the run with the given options finds around it. -/
def world (o : Options) : IO World := do
  let vars ← environment
  let env := fun name => vars.lookup name
  let paths := [(Command.configFile env o).1, o.queryFile, o.descriptor]
  let found ← paths.mapM fun p => do return (p, ← lookup p)
  let input ←
    if Source.ofArgument o.descriptor = .standardInput then
      pure (← readAll (← IO.getStdin) .empty).toList
    else pure []
  return { env, input, lookup := fun p => (found.lookup p).getD .missing }

/-- Carries out the outcome of a run and gives its exit code. -/
def carryOut : Outcome → IO UInt32
  | .finished code out err => do
    write (← IO.getStderr) err
    write (← IO.getStdout) out
    return UInt32.ofNat code
  | .descriptor _ | .json .. => do
    write (← IO.getStderr) (ascii "Error: descriptors and JSON output are not available\n")
    return 1
  | .uncaught e => do
    write (← IO.getStderr) (ascii "uncaught exception: " ++ e.message ++ ascii "\n")
    return 134

end Program

end DocSearch

def main (args : List String) : IO UInt32 := do
  let args := args.map DocSearch.Program.textOf
  let w ← DocSearch.Program.world (({} : DocSearch.Options).read args).1
  DocSearch.Program.carryOut (DocSearch.Command.run w args)
