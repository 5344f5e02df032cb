import DocSearch.Proofs.Command.Stages
import DocSearch.Proofs.Settings.Layout

/-!
# The configuration of a run

A run is configured by the file that its arguments name, or by that at the place which the environment tells
(`Command.configuredAt_iff`).  The settings are those that the file assigns, or none if nobody asked for a file that is
not there (`Command.settings_eq_ok`).  Other runs report what is wrong with the file, or end with an exception because
nothing can be found out about its path (`Command.settings_eq_error`).
-/

namespace DocSearch

namespace Command

/-! ### Where the file is -/

/-- The value of a variable, empty if it is not set. -/
def variableValue (env : Text → Option Text) (name : Text) : Text := (env name).getD []

/-- A path below a directory, with one slash between the two. -/
def below (directory path : Text) : Text :=
  directory ++ (if directory.getLast? = some '/'.toUInt8 then [] else ['/'.toUInt8]) ++ path

/-- The path of the configuration file, and whether the file must be there. -/
inductive ConfiguredAt (env : Text → Option Text) (gs : List FlagGroup) : Text → Bool → Prop
  | flag {path : Text} (hp : givenValue .config gs = path) (hne : path ≠ []) : ConfiguredAt env gs path true
  | named {path : Text} (hp : givenValue .config gs = []) (hv : variableValue env (ascii "CTSQ_CONFIG") = path)
      (hne : path ≠ []) : ConfiguredAt env gs path false
  | directory {directory : Text} (hp : givenValue .config gs = [])
      (hv : variableValue env (ascii "CTSQ_CONFIG") = [])
      (hd : variableValue env (ascii "XDG_CONFIG_HOME") = directory) (hne : directory ≠ []) :
      ConfiguredAt env gs (below directory (ascii "ctsq/config.toml")) false
  | home {home : Text} (hp : givenValue .config gs = []) (hv : variableValue env (ascii "CTSQ_CONFIG") = [])
      (hd : variableValue env (ascii "XDG_CONFIG_HOME") = []) (hh : variableValue env (ascii "HOME") = home)
      (hne : home ≠ []) : ConfiguredAt env gs (below home (ascii ".config/ctsq/config.toml")) false
  | nowhere (hp : givenValue .config gs = []) (hv : variableValue env (ascii "CTSQ_CONFIG") = [])
      (hd : variableValue env (ascii "XDG_CONFIG_HOME") = []) (hh : variableValue env (ascii "HOME") = []) :
      ConfiguredAt env gs (ascii "ctsq.config.toml") false

variable {w : World} {env : Text → Option Text} {gs : List FlagGroup} {path : Text} {mustExist : Bool}
  {s : Settings} {f : Failure}

theorem joinPath_eq_below (left right : Text) : joinPath left right = below left right := by
  unfold joinPath below
  split <;> simp

/-- Names are put below a directory one after the other. -/
theorem joinPath_below {name : Text} {b : UInt8} (hlast : name.getLast? = some b) (hb : b ≠ '/'.toUInt8)
    (directory right : Text) :
    joinPath (below directory name) right = below directory (name ++ '/'.toUInt8 :: right) := by
  have hlast' : (below directory name).getLast? = some b := by
    rw [below, List.getLast?_append, hlast, Option.some_or]
  rw [joinPath, hlast', if_neg (by simpa using hb), below, below]
  simp

theorem nonempty?_eq_none {v : Option Text} : nonempty? v = none ↔ v.getD [] = [] := by
  cases v <;> simp [nonempty?]

theorem nonempty?_eq_some {v : Option Text} : nonempty? v = some path ↔ v.getD [] = path ∧ path ≠ [] := by
  cases v with
  | none => simp [nonempty?]
  | some v =>
    simp only [nonempty?, Option.filter_eq_some_iff, Option.some.injEq, Option.getD_some]
    constructor
    · rintro ⟨rfl, hne⟩
      exact ⟨rfl, by simpa using hne⟩
    · rintro ⟨rfl, hne⟩
      exact ⟨rfl, by simpa using hne⟩

theorem configPath_of_variable (hv : variableValue env (ascii "CTSQ_CONFIG") = path) (hne : path ≠ []) :
    configPath env = path := by
  simp [configPath, nonempty?_eq_some.2 ⟨hv, hne⟩]

theorem configPath_of_directory {directory : Text} (hv : variableValue env (ascii "CTSQ_CONFIG") = [])
    (hd : variableValue env (ascii "XDG_CONFIG_HOME") = directory) (hne : directory ≠ []) :
    configPath env = below directory (ascii "ctsq/config.toml") := by
  have hlast : (ascii "ctsq").getLast? = some 'q'.toUInt8 := rfl
  simp only [configPath, nonempty?_eq_none.2 hv, nonempty?_eq_some.2 ⟨hd, hne⟩, joinAll, List.foldl_cons,
    List.foldl_nil]
  rw [joinPath_eq_below directory, joinPath_below hlast (by decide)]
  rfl

theorem configPath_of_home {home : Text} (hv : variableValue env (ascii "CTSQ_CONFIG") = [])
    (hd : variableValue env (ascii "XDG_CONFIG_HOME") = []) (hh : variableValue env (ascii "HOME") = home)
    (hne : home ≠ []) : configPath env = below home (ascii ".config/ctsq/config.toml") := by
  have hlast : (ascii ".config").getLast? = some 'g'.toUInt8 := rfl
  have hlast' : (ascii ".config" ++ '/'.toUInt8 :: ascii "ctsq").getLast? = some 'q'.toUInt8 := rfl
  simp only [configPath, nonempty?_eq_none.2 hv, nonempty?_eq_none.2 hd, nonempty?_eq_some.2 ⟨hh, hne⟩, joinAll,
    List.foldl_cons, List.foldl_nil]
  rw [joinPath_eq_below home, joinPath_below hlast (by decide), joinPath_below hlast' (by decide)]
  rfl

theorem configPath_of_nowhere (hv : variableValue env (ascii "CTSQ_CONFIG") = [])
    (hd : variableValue env (ascii "XDG_CONFIG_HOME") = []) (hh : variableValue env (ascii "HOME") = []) :
    configPath env = ascii "ctsq.config.toml" := by
  simp only [configPath, nonempty?_eq_none.2 hv, nonempty?_eq_none.2 hd, nonempty?_eq_none.2 hh]

/-- Some place is told, and it is the one that is looked at. -/
theorem configuredAt_iff :
    ConfiguredAt env gs path mustExist ↔ configFile env (Options.ofGroups gs) = (path, mustExist) := by
  constructor
  · intro h
    cases h with
    | flag hp hne => simp [configFile, hp, hne]
    | named hp hv hne => simp [configFile, hp, configPath_of_variable hv hne]
    | directory hp hv hd hne => simp [configFile, hp, configPath_of_directory hv hd hne]
    | home hp hv hd hh hne => simp [configFile, hp, configPath_of_home hv hd hh hne]
    | nowhere hp hv hd hh => simp [configFile, hp, configPath_of_nowhere hv hd hh]
  · intro h
    by_cases hp : givenValue .config gs = []
    · obtain ⟨rfl, rfl⟩ : configPath env = path ∧ false = mustExist := by simpa [configFile, hp] using h
      by_cases hv : variableValue env (ascii "CTSQ_CONFIG") = []
      · by_cases hd : variableValue env (ascii "XDG_CONFIG_HOME") = []
        · by_cases hh : variableValue env (ascii "HOME") = []
          · rw [configPath_of_nowhere hv hd hh]
            exact .nowhere hp hv hd hh
          · rw [configPath_of_home hv hd rfl hh]
            exact .home hp hv hd rfl hh
        · rw [configPath_of_directory hv rfl hd]
          exact .directory hp hv rfl hd
      · rw [configPath_of_variable rfl hv]
        exact .named hp rfl hv
    · obtain ⟨rfl, rfl⟩ : givenValue .config gs = path ∧ true = mustExist := by simpa [configFile, hp] using h
      exact .flag rfl hp

theorem ConfiguredAt.ne_nil (h : ConfiguredAt env gs path mustExist) : path ≠ [] := by
  have hbelow : ∀ directory name, name ≠ [] → below directory name ≠ [] := by
    intro directory name hname
    simp [below, hname]
  cases h with
  | flag hp hne => exact hne
  | named hp hv hne => exact hne
  | directory hp hv hd hne => exact hbelow _ _ (by decide)
  | home hp hv hd hh hne => exact hbelow _ _ (by decide)
  | nowhere hp hv hd hh => decide

/-! ### What comes of it -/

/-- The settings of a run: those that its file assigns, or none without a file. -/
inductive Configured (w : World) (gs : List FlagGroup) : Settings → Prop
  | absent {path : Text} (hp : ConfiguredAt w.env gs path false) (hm : w.lookup path = .missing) :
      Configured w gs {}
  | file {path text : Text} {mustExist : Bool} {s : Settings} (hp : ConfiguredAt w.env gs path mustExist)
      (hc : w.lookup path = .contents text) (hs : Settings.ofText text = (s, none)) : Configured w gs s

/-- What is wrong with the configuration of a run, and reported. -/
inductive Misconfigured (w : World) (gs : List FlagGroup) : Text → Prop
  | missing {path : Text} (hp : ConfiguredAt w.env gs path true) (hm : w.lookup path = .missing) :
      Misconfigured w gs (ascii "Config file not found: " ++ path)
  | unopenable {path : Text} {mustExist : Bool} (hp : ConfiguredAt w.env gs path mustExist)
      (hu : w.lookup path = .unopenable) : Misconfigured w gs (ascii "Failed to open config: " ++ path)
  | invalid {path text : Text} {mustExist : Bool} {s : Settings} {key : SettingKey} {n : Nat}
      (hp : ConfiguredAt w.env gs path mustExist) (hc : w.lookup path = .contents text)
      (hs : Settings.ofText text = (s, some (.invalidValue key n))) : Misconfigured w gs (key.invalidReport n)

/-- Nothing can be found out about the path of the configuration file, for the given reason. -/
def IsCutOff (w : World) (gs : List FlagGroup) (e : AccessError) : Prop :=
  ∃ mustExist, ConfiguredAt w.env gs e.path mustExist ∧ w.lookup e.path = .inaccessible e.reason

/-- Only invalid values are wrong with a text. -/
theorem exists_of_ofText {text : Text} {e : LoadError} (h : Settings.ofText text = (s, some e)) :
    ∃ key n, e = .invalidValue key n := by
  rw [Settings.ofText, Settings.readLines_eq] at h
  obtain ⟨before, a, after, -, -, -, rfl⟩ := Settings.assignAll_eq_error.1 h
  exact ⟨a.key, a.line, rfl⟩

theorem Configured.settings_eq (h : Configured w gs s) : settings w (Options.ofGroups gs) = .ok s := by
  cases h with
  | absent hp hm => simp [settings, configuredAt_iff.1 hp, Settings.load, hp.ne_nil, hm, LoadError.message?]
  | file hp hc hs => simp [settings, configuredAt_iff.1 hp, Settings.load, hp.ne_nil, hc, hs]

theorem Misconfigured.settings_eq {message : Text} (h : Misconfigured w gs message) :
    settings w (Options.ofGroups gs) = .error (.settings message) := by
  cases h with
  | missing hp hm => simp [settings, configuredAt_iff.1 hp, Settings.load, hp.ne_nil, hm, LoadError.message?]
  | unopenable hp hu => simp [settings, configuredAt_iff.1 hp, Settings.load, hp.ne_nil, hu, LoadError.message?]
  | invalid hp hc hs =>
    simp [settings, configuredAt_iff.1 hp, Settings.load, hp.ne_nil, hc, hs, LoadError.message?,
      SettingKey.invalidReport]

theorem IsCutOff.settings_eq {e : AccessError} (h : IsCutOff w gs e) :
    settings w (Options.ofGroups gs) = .error (.uncaught e) := by
  obtain ⟨mustExist, hp, hreason⟩ := h
  simp [settings, configuredAt_iff.1 hp, Settings.load, hp.ne_nil, hreason]

/-- Each run is configured, or has a fault in its configuration to report, or cannot tell. -/
theorem configuration_cases (w : World) (gs : List FlagGroup) :
    (∃ s, Configured w gs s) ∨ (∃ message, Misconfigured w gs message) ∨ ∃ e, IsCutOff w gs e := by
  obtain ⟨path, mustExist, hp⟩ : ∃ path mustExist, ConfiguredAt w.env gs path mustExist :=
    ⟨_, _, configuredAt_iff.2 rfl⟩
  cases hfound : w.lookup path with
  | missing =>
    cases mustExist with
    | false => exact Or.inl ⟨_, .absent hp hfound⟩
    | true => exact Or.inr (Or.inl ⟨_, .missing hp hfound⟩)
  | inaccessible reason => exact Or.inr (Or.inr ⟨⟨path, reason⟩, mustExist, hp, hfound⟩)
  | unopenable => exact Or.inr (Or.inl ⟨_, .unopenable hp hfound⟩)
  | contents text =>
    obtain ⟨s, e, hs⟩ : ∃ s e, Settings.ofText text = (s, e) := ⟨_, _, rfl⟩
    cases e with
    | none => exact Or.inl ⟨s, .file hp hfound hs⟩
    | some e =>
      obtain ⟨key, n, rfl⟩ := exists_of_ofText hs
      exact Or.inr (Or.inl ⟨_, .invalid hp hfound hs⟩)

theorem settings_eq_ok : settings w (Options.ofGroups gs) = .ok s ↔ Configured w gs s := by
  refine ⟨fun h => ?_, Configured.settings_eq⟩
  rcases configuration_cases w gs with ⟨s', hs⟩ | ⟨message, hm⟩ | ⟨e, he⟩
  · cases hs.settings_eq.symm.trans h
    exact hs
  · cases hm.settings_eq.symm.trans h
  · cases he.settings_eq.symm.trans h

/-- Settings that are not loaded are reported, or end the run with an exception. -/
theorem settings_eq_error :
    settings w (Options.ofGroups gs) = .error f ↔
      (∃ message, Misconfigured w gs message ∧ f = .settings message) ∨ ∃ e, IsCutOff w gs e ∧ f = .uncaught e := by
  constructor
  · intro h
    rcases configuration_cases w gs with ⟨s, hs⟩ | ⟨message, hm⟩ | ⟨e, he⟩
    · cases hs.settings_eq.symm.trans h
    · cases hm.settings_eq.symm.trans h
      exact Or.inl ⟨message, hm, rfl⟩
    · cases he.settings_eq.symm.trans h
      exact Or.inr ⟨e, he, rfl⟩
  · rintro (⟨message, hm, rfl⟩ | ⟨e, he, rfl⟩)
    · exact hm.settings_eq
    · exact he.settings_eq

end Command

end DocSearch
