import DocSearch.Query.Compile
import DocSearch.Query.Parse
import DocSearch.Query.Summary
import DocSearch.Settings
import DocSearch.World

/-!
# The command

One run of the command line tool, as a function of its arguments, its environment and the files that it finds:
it reads the options and the configuration, reads and parses the query, and writes the compiled query.
Descriptors and JSON output are the work of other parts of the tool; a run that gets so far ends there.  Exceptions are
reported from the reading of the query on; one of the configuration leaves the program.
-/

namespace DocSearch

inductive Outcome where
  /-- The run is over. -/
  | finished (code : Nat) (out err : Text)
  /-- A descriptor has been read and is to be compiled. -/
  | descriptor (text : Text)
  /-- A compiled query is to be written as JSON. -/
  | json (compiled : Text) (err : Text)
  /-- An exception that nothing catches has ended the program, which has written nothing. -/
  | uncaught (e : AccessError)
  deriving DecidableEq

namespace Command

/-! ### Texts for the terminal -/

def newline : Text := ascii "\n"

def red : Text := 27 :: ascii "[31m"

def dim : Text := 27 :: ascii "[2m"

def reset : Text := 27 :: ascii "[0m"

/-- A line in a color, or without one. -/
def colored (color : Bool) (start s : Text) : Text := (if color then start ++ s ++ reset else s) ++ newline

def errorLine (color : Bool) (message : Text) : Text := colored color red (ascii "Error: " ++ message)

def summaryLine (color : Bool) (q : Query) : Text := colored color dim q.summary

def startupHelp : Text :=
  Text.join newline
    [ascii "ctsq - compile search descriptors into cts:search expressions",
      ascii "",
      ascii "Usage:",
      ascii "  ctsq --query <text>",
      ascii "  ctsq --query-file <file>",
      ascii "  ctsq --descriptor <file.json|->",
      ascii "  ctsq --prefixes on|off",
      ascii "  ctsq --mode plain|json",
      ascii "  ctsq --config <path>",
      ascii "  ctsq --verbose",
      ascii "  ctsq --color=disabled",
      ascii "",
      ascii "Examples:",
      ascii "  ctsq --query \"SEARCH IN 'Collection1' WHERE name = 'Me' AND town = 'Paris'\"",
      ascii "  ctsq --query \"SEARCH ORDER BY age DESC, lastname LIMIT 10 OFFSET 20\" --prefixes on",
      ascii "  ctsq --descriptor ./query.json --mode json",
      ascii ""]

def help : Text :=
  Text.join newline
    [ascii "Usage: ctsq --query <text>",
      ascii "       ctsq --query-file <file>",
      ascii "       ctsq --descriptor <file.json|->",
      ascii "Options:",
      ascii "  --prefixes on|off   emit cts:/fn: function prefixes",
      ascii "  --mode plain|json   output format",
      ascii "  --config <path>     configuration file (default: $CTSQ_CONFIG or ~/.config/ctsq/config.toml)",
      ascii "  --verbose           print a descriptor summary to stderr",
      ascii "  --color=disabled    disable colored diagnostics",
      ascii "Query text: SEARCH [IN 'collection'] [WHERE expr] [ORDER BY field [ASC|DESC], ...]",
      ascii "            [LIMIT n [OFFSET m]]",
      ascii ""]

/-! ### Errors -/

/-- Why a run fails. -/
inductive Failure where
  | argument (e : ArgumentError)
  | severalSources
  | settings (message : Text)
  | uncaught (e : AccessError)
  | file (e : ReadError)
  | parse (e : ParseError)
  | criteria (f : CriteriaFault)

/-- The words for a failure.  Those of a failure behind the configuration pass through a zero-terminated
string. -/
def Failure.message : Failure → Text
  | argument e => e.message
  | severalSources => ascii "Use only one of --query, --query-file or --descriptor"
  | settings message => message
  | uncaught e => e.message
  | file e => e.message.beforeZero
  | parse e => (e.fault.message ++ ascii " at position " ++ Decimal.ofNat e.position).beforeZero
  | criteria f => f.message.beforeZero

/-- The end of a run that fails: one line on the error stream, and nothing on the other.  An exception in front of the
part that reports them ends the program as it is. -/
def fail (o : Options) : Failure → Outcome
  | .uncaught e => .uncaught e
  | f => .finished 1 [] (errorLine o.color f.message)

/-! ### Stages -/

/-- The path of the configuration file, and whether it was asked for and must exist. -/
def configFile (env : Text → Option Text) (o : Options) : Text × Bool :=
  if o.configPath.isEmpty then (configPath env, false) else (o.configPath, true)

/-- The settings of the configuration file, or the words for what is wrong with it. -/
def settings (w : World) (o : Options) : Except Failure Settings :=
  let (path, mustExist) := configFile w.env o
  match Settings.load path mustExist (w.lookup path) with
  | (s, none) => .ok s
  | (_, some (.thrown e)) => .error (.uncaught e)
  | (s, some e) =>
    match e.message? with
    | none => .ok s
    | some message => .error (.settings message)

/-- The text of the query, given itself or in a file. -/
def queryText (w : World) (o : Options) : Except ReadError Text :=
  if o.query.isEmpty then w.read (.file o.queryFile) else .ok o.query

def query (w : World) (o : Options) : Except Failure Query := do
  let text ← (queryText w o).mapError .file
  (Query.parse text w.names).mapError .parse

/-- The query with the configured collection in place of an absent one. -/
def withDefault (s : Settings) (q : Query) : Query :=
  { q with collection := q.collection <|> s.defaultCollection }

def prefixes (o : Options) (s : Settings) : Bool := (o.prefixes <|> s.prefixes).getD false

def mode (o : Options) (s : Settings) : OutputMode := (o.mode <|> s.mode).getD .plain

/-- The summary of the query if it is asked for. -/
def diagnostics (o : Options) (q : Query) : Text := if o.verbose then summaryLine o.color q else []

/-- The end of a run on a query: the compiled query on the output stream. -/
def finish (o : Options) (s : Settings) (q : Query) : Outcome :=
  match q.compile (prefixes o s) with
  | .error f => .finished 1 [] (diagnostics o q ++ errorLine o.color (Failure.criteria f).message)
  | .ok compiled =>
    match mode o s with
    | .plain => .finished 0 (compiled ++ newline) (diagnostics o q)
    | .json => .json compiled (diagnostics o q)

/-- The part of a run on a descriptor that comes before it is compiled. -/
def openDescriptor (w : World) (o : Options) : Outcome :=
  match w.read (.ofArgument o.descriptor) with
  | .ok text => .descriptor text
  | .error e => fail o (.file e)

/-- A run with exactly one source. -/
def runSource (w : World) (o : Options) : Outcome :=
  match settings w o with
  | .error f => fail o f
  | .ok s =>
    if o.descriptor.isEmpty then
      match query w o with
      | .error f => fail o f
      | .ok q => finish o s (withDefault s q)
    else openDescriptor w o

/-- A run with the given arguments. -/
def run (w : World) (args : List Text) : Outcome :=
  match ({} : Options).read args with
  | (o, some e) => fail o (.argument e)
  | (o, none) =>
    if o.help then .finished 0 help []
    else if o.sources = 0 then .finished 1 [] startupHelp
    else if 1 < o.sources then fail o .severalSources
    else runSource w o

end Command

end DocSearch
