import DocSearch.Text

/-!
# Command line options

Arguments are read from left to right in groups: a flag that takes a value with the argument after it,
whatever that is, or a switch alone.  Reading stops at the first argument that is no flag, lacks its value or
has an unsuitable one, and the groups before it keep their effect.
-/

namespace DocSearch

inductive OutputMode where
  | plain
  | json
  deriving DecidableEq

def OutputMode.name : OutputMode → Text
  | plain => ascii "plain"
  | json => ascii "json"

def OutputMode.ofName? (name : Text) : Option OutputMode := [plain, json].find? fun m => m.name == name

/-- The flags that take a value. -/
inductive ValueFlag where
  | query
  | queryFile
  | descriptor
  | config
  | prefixes
  | mode
  deriving DecidableEq

/-- The flags that stand alone. -/
inductive Switch where
  | verbose
  | noColor
  | help
  deriving DecidableEq

inductive ArgumentError where
  | missingValue (flag : ValueFlag)
  | invalidPrefixes
  | invalidMode
  | unknown (argument : Text)
  deriving DecidableEq

/-- What the arguments ask for; an empty text counts as not given. -/
structure Options where
  query : Text := []
  queryFile : Text := []
  descriptor : Text := []
  configPath : Text := []
  prefixes : Option Bool := none
  mode : Option OutputMode := none
  verbose : Bool := false
  color : Bool := true
  help : Bool := false
  deriving DecidableEq

namespace ValueFlag

def spelling : ValueFlag → Text
  | query => ascii "--query"
  | queryFile => ascii "--query-file"
  | descriptor => ascii "--descriptor"
  | config => ascii "--config"
  | prefixes => ascii "--prefixes"
  | mode => ascii "--mode"

def all : List ValueFlag := [query, queryFile, descriptor, config, prefixes, mode]

def ofArgument? (argument : Text) : Option ValueFlag := all.find? fun f => f.spelling == argument

end ValueFlag

namespace Switch

def spelling : Switch → Text
  | verbose => ascii "--verbose"
  | noColor => ascii "--color=disabled"
  | help => ascii "--help"

def all : List Switch := [verbose, noColor, help]

def ofArgument? (argument : Text) : Option Switch := all.find? fun s => s.spelling == argument

end Switch

def ArgumentError.message : ArgumentError → Text
  | missingValue flag => ascii "Missing value for " ++ flag.spelling
  | invalidPrefixes => ascii "Invalid --prefixes value (use on|off)"
  | invalidMode => ascii "Invalid --mode value (use plain|json)"
  | unknown argument => ascii "Unknown argument: " ++ argument

namespace Options

/-- The effect of a flag with its value. -/
def set (o : Options) (flag : ValueFlag) (value : Text) : Except ArgumentError Options :=
  match flag with
  | .query => .ok { o with query := value }
  | .queryFile => .ok { o with queryFile := value }
  | .descriptor => .ok { o with descriptor := value }
  | .config => .ok { o with configPath := value }
  | .prefixes =>
    if value = ascii "on" then .ok { o with prefixes := some true }
    else if value = ascii "off" then .ok { o with prefixes := some false }
    else .error .invalidPrefixes
  | .mode =>
    match OutputMode.ofName? value with
    | some m => .ok { o with mode := some m }
    | none => .error .invalidMode

/-- The effect of a switch. -/
def turn (o : Options) : Switch → Options
  | .verbose => { o with verbose := true }
  | .noColor => { o with color := false }
  | .help => { o with help := true }

/-- The options after the arguments, or up to the first one in error. -/
def read (o : Options) : List Text → Options × Option ArgumentError
  | [] => (o, none)
  | a :: args =>
    match ValueFlag.ofArgument? a with
    | some flag =>
      match args with
      | [] => (o, some (.missingValue flag))
      | value :: rest =>
        match o.set flag value with
        | .ok o' => read o' rest
        | .error e => (o, some e)
    | none =>
      match Switch.ofArgument? a with
      | some s => read (o.turn s) args
      | none => (o, some (.unknown a))

/-- How many of the three sources of a query are given. -/
def sources (o : Options) : Nat := [o.query, o.queryFile, o.descriptor].countP fun s => !s.isEmpty

end Options

/-! ### Repeated reading -/

/-- Options together with the text of the last error. -/
structure OptionsState where
  options : Options := {}
  report : Text := []
  deriving DecidableEq

/-- Reads further arguments: whether they are in order, and the state after them.  An error replaces the last
one. -/
def OptionsState.read (st : OptionsState) (args : List Text) : Bool × OptionsState :=
  match st.options.read args with
  | (o, none) => (true, { st with options := o })
  | (o, some e) => (false, ⟨o, e.message⟩)

end DocSearch
