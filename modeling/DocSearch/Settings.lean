import DocSearch.Decimal
import DocSearch.FileTree
import DocSearch.Options

/-!
# Settings

A configuration file assigns settings line by line: `[section]` headers, `key = value` lines whose full key is
`section.key`, and lines that say nothing.  The first invalid value ends the reading, and the settings before
it stay.  A path of which nothing can be found out is not reported: an exception leaves the loader.
-/

namespace DocSearch

structure Settings where
  prefixes : Option Bool := none
  defaultCollection : Option Text := none
  mode : Option OutputMode := none
  deriving DecidableEq

inductive SettingKey where
  | prefixes
  | defaultCollection
  | mode
  deriving DecidableEq

/-- What a line of a configuration file says. -/
inductive SettingLine where
  | header (section_ : Text)
  | assignment (key value : Text)
  | nothing
  deriving DecidableEq

/-- The exception for a path of which nothing can be found out. -/
structure AccessError where
  path : Text
  reason : Text
  deriving DecidableEq

def AccessError.message (e : AccessError) : Text :=
  ascii "filesystem error: status: " ++ e.reason ++ ascii " [" ++ e.path ++ ascii "]"

/-- Why a configuration file could not be loaded as a whole. -/
inductive LoadError where
  /-- There is no such file, and none was asked for. -/
  | absent
  /-- No error that is reported, but an exception. -/
  | thrown (e : AccessError)
  | notFound (path : Text)
  | unopenable (path : Text)
  | invalidValue (key : SettingKey) (line : Nat)
  deriving DecidableEq

namespace SettingKey

def fullName : SettingKey → Text
  | prefixes => ascii "compile.prefixes"
  | defaultCollection => ascii "compile.default_collection"
  | mode => ascii "output.mode"

def all : List SettingKey := [prefixes, defaultCollection, mode]

/-- The setting that a key names in a section; outside all sections the key is the whole name. -/
def ofKey? (section_ key : Text) : Option SettingKey :=
  let name := if section_.isEmpty then key else section_ ++ '.'.toUInt8 :: key
  all.find? fun k => k.fullName == name

end SettingKey

namespace LoadError

/-- The words for an error; that nothing was asked for is no error to report, and neither is an exception. -/
def message? : LoadError → Option Text
  | absent | thrown _ => none
  | notFound path => some (ascii "Config file not found: " ++ path)
  | unopenable path => some (ascii "Failed to open config: " ++ path)
  | invalidValue key line =>
    some (ascii "Invalid " ++ key.fullName ++ ascii " at line " ++ Decimal.ofNat line)

end LoadError

/-! ### Lines and values -/

/-- A bracketed text without its brackets. -/
def bracketed? (s : Text) : Option Text :=
  if s.head? = some '['.toUInt8 ∧ s.getLast? = some ']'.toUInt8 then some (s.drop 1).dropLast else none

namespace SettingLine

/-- What a line without blanks at its ends says. -/
def ofTrimmed (s : Text) : SettingLine :=
  if s.isEmpty || s.head? == some '#'.toUInt8 then nothing
  else
    match bracketed? s with
    | some inner => header inner.trim
    | none =>
      match s.cut '='.toUInt8 with
      | none => nothing
      | some (left, right) => if left.trim.isEmpty then nothing else assignment left.trim right.trim

/-- What a line says, whatever blanks are around it and around its parts. -/
def ofLine (line : Text) : SettingLine := ofTrimmed line.trim

end SettingLine

/-- The text that a value stands for: between a pair of quotes of one kind, or bare.  A bare value may not be
empty or start with a quote. -/
def unquoted? (value : Text) : Option Text :=
  match value with
  | [] => none
  | b :: rest =>
    if isQuote b then if rest.getLast? = some b then some rest.dropLast else none
    else some (b :: rest)

def boolValue? (value : Text) : Option Bool :=
  let word := value.map toLower
  if word = ascii "true" then some true
  else if word = ascii "false" then some false
  else none

def modeValue? (value : Text) : Option OutputMode := do
  let s ← unquoted? value
  OutputMode.ofName? (s.map toLower)

namespace Settings

/-- The settings with a further value, unless that is invalid. -/
def assign (s : Settings) (key : SettingKey) (value : Text) : Option Settings :=
  match key with
  | .prefixes => (boolValue? value).map fun b => { s with prefixes := some b }
  | .defaultCollection => (unquoted? value).map fun c => { s with defaultCollection := some c }
  | .mode => (modeValue? value).map fun m => { s with mode := some m }

/-- The settings after the lines from line `n` on, in the given section, and the first line with an invalid
value. -/
def readLines (s : Settings) (section_ : Text) (n : Nat) : List Text → Settings × Option LoadError
  | [] => (s, none)
  | line :: lines =>
    match SettingLine.ofLine line with
    | .nothing => readLines s section_ (n + 1) lines
    | .header section' => readLines s section' (n + 1) lines
    | .assignment key value =>
      match SettingKey.ofKey? section_ key with
      | none => readLines s section_ (n + 1) lines
      | some k =>
        match s.assign k value with
        | some s' => readLines s' section_ (n + 1) lines
        | none => (s, some (.invalidValue k n))

/-- The settings that the text of a configuration file assigns. -/
def ofText (text : Text) : Settings × Option LoadError := readLines {} [] 1 text.lines

/-- The settings of the file at a path, which has been looked up.  An empty path asks for no file. -/
def load (path : Text) (mustExist : Bool) (found : Lookup) : Settings × Option LoadError :=
  if path.isEmpty then ({}, some .absent)
  else
    match found with
    | .missing => ({}, some (if mustExist then .notFound path else .absent))
    | .inaccessible reason => ({}, some (.thrown ⟨path, reason⟩))
    | .unopenable => ({}, some (.unopenable path))
    | .contents text => ofText text

end Settings

/-! ### Repeated loading -/

/-- Settings together with the text of the last error. -/
structure SettingsState where
  settings : Settings := {}
  report : Text := []
  deriving DecidableEq

/-- Loads a file in place of the settings: whether that succeeds or which exception it ends with, and the state
after it.  An error replaces the last one. -/
def SettingsState.load (st : SettingsState) (path : Text) (mustExist : Bool) (found : Lookup) :
    Except AccessError Bool × SettingsState :=
  match Settings.load path mustExist found with
  | (s, none) => (.ok true, { st with settings := s })
  | (s, some (.thrown e)) => (.error e, { st with settings := s })
  | (s, some e) => (.ok false, ⟨s, e.message?.getD st.report⟩)

/-! ### Where the file is -/

/-- The value of a variable, unless it is empty. -/
def nonempty? (s : Option Text) : Option Text := s.filter fun v => !v.isEmpty

/-- A path extended by further names. -/
def joinAll (path : Text) (names : List Text) : Text := names.foldl joinPath path

/-- The path of the configuration file: given by `CTSQ_CONFIG`, or below the configuration or home directory. -/
def configPath (env : Text → Option Text) : Text :=
  match nonempty? (env (ascii "CTSQ_CONFIG")) with
  | some path => path
  | none =>
    match nonempty? (env (ascii "XDG_CONFIG_HOME")) with
    | some directory => joinAll directory [ascii "ctsq", ascii "config.toml"]
    | none =>
      match nonempty? (env (ascii "HOME")) with
      | some home => joinAll home [ascii ".config", ascii "ctsq", ascii "config.toml"]
      | none => ascii "ctsq.config.toml"

end DocSearch
