import DocSearch.Proofs.Command.Output
import DocSearch.Proofs.Query.CollectionClause
import DocSearch.Proofs.Settings.Collection

/-!
# The default collection

A run on a query text depends on the query, the settings and the other flags only (`RunsOn.run_eq`).  So a default
collection in the configuration does what a clause for it does in a text without one, and nothing where the text has
one (`Command.run_default_collection`).
-/

namespace DocSearch

/-! ### Other groups -/

/-- The groups that give no query. -/
def otherGroups (gs : List FlagGroup) : List FlagGroup := gs.filter fun g => (g.value? .query).isNone

theorem lastValue?_otherGroups {flag : ValueFlag} (hflag : flag ≠ .query) (gs : List FlagGroup) :
    lastValue? flag (otherGroups gs) = lastValue? flag gs := by
  refine lastValue?_filter (fun g hg => ?_) gs
  cases g with
  | switch s => rfl
  | value flag' v =>
    by_cases hf : flag' = .query
    · simp [FlagGroup.value?, hf, Ne.symm hflag]
    · simp [FlagGroup.value?, hf] at hg

theorem switch_mem_otherGroups {s : Switch} {gs : List FlagGroup} :
    .switch s ∈ otherGroups gs ↔ .switch s ∈ gs := by
  simp [otherGroups, FlagGroup.value?]

/-- The options of groups are those of the other groups, but for the query. -/
theorem Options.ofGroups_otherGroups (gs : List FlagGroup) :
    ofGroups gs = { ofGroups (otherGroups gs) with query := givenValue .query gs } := by
  have hlast : ∀ flag, flag ≠ .query → lastValue? flag (otherGroups gs) = lastValue? flag gs :=
    fun _ h => lastValue?_otherGroups h gs
  simp [ofGroups, after, givenValue, hlast, switch_mem_otherGroups]

namespace Command

variable {w : World} {args : List Text} {others : List FlagGroup} {lines : List Text} {text : Text} {s : Settings}
  {q : Query}

/-- A run on a query text, which is given itself or in a file, with these other flags and these lines in the
configuration file. -/
inductive RunsOn (w : World) (args : List Text) (others : List FlagGroup) (lines : List Text) (text : Text) : Prop
  | intro {gs : List FlagGroup} {config : Text} (hgs : AreGroups gs args) (hothers : otherGroups gs = others)
      (ht : IsQueryText w gs text) (hconfig : w.lookup (configFile w.env (Options.ofGroups gs)).1 = .contents config)
      (hlines : config.lines = lines) : RunsOn w args others lines text

/-! ### Runs -/

/-- A run on a text that denotes a query ends with the help or behind the last stage, and it depends on the other
flags, the settings and the query only. -/
theorem RunsOn.run_eq (h : RunsOn w args others lines text)
    (hs : Settings.readLines {} [] 1 lines = (s, none)) (hq : Query.parse text w.names = .ok q) :
    run w args =
      if .switch .help ∈ others then .finished 0 help [] else finish (Options.ofGroups others) s (withDefault s q) := by
  obtain @⟨gs, config, hgs, rfl, ht, hconfig, rfl⟩ := h
  obtain ⟨hd, hone, htext⟩ := isQueryText_iff.1 ht
  have hsettings : settings w (Options.ofGroups gs) = .ok s :=
    settings_eq_ok.2 (.file (configuredAt_iff.2 rfl) hconfig hs)
  have hquery := query_eq_ok.2 ⟨text, htext, hq⟩
  have hrun : runSource w (Options.ofGroups gs) = finish (Options.ofGroups gs) s (withDefault s q) := by
    simp [runSource, hsettings, hquery, hd]
  have hfinish : finish (Options.ofGroups gs) s (withDefault s q) =
      finish (Options.ofGroups (otherGroups gs)) s (withDefault s q) := by
    -- the last stage does not look at the query text
    rw [Options.ofGroups_otherGroups]
    rfl
  rw [run_eq_of_groups hgs, hone, hrun, hfinish]
  simp [switch_mem_otherGroups]

/-! ### The default collection and the clause for it -/

/-- A default collection in the configuration does what a clause behind the first token does in a text that names no
collection, and nothing in a text that names one. -/
theorem run_default_collection (w : World) (args : List Text) (others : List FlagGroup) (before after : List Text)
    (c? : Option Text) (text : Text) (s : Settings) (q : Query)
    (hrun : RunsOn w args others (configLines before c? after) text)
    (hsection : sectionAfter [] before = ascii "compile")
    (honly : ∀ a ∈ assignments [] 1 (before ++ after), a.key ≠ .defaultCollection)
    (hloads : Settings.readLines {} [] 1 (configLines before c? after) = (s, none))
    (hparse : Query.parse text w.names = .ok q) :
    (∀ c w' args', c? = some c → '\''.toUInt8 ∉ c → namesCollection text = false → w'.names = w.names →
      RunsOn w' args' others (configLines before none after) (withCollectionClause c text) →
        run w' args' = run w args) ∧
      ∀ c?' w' args', namesCollection text = true → w'.names = w.names →
        RunsOn w' args' others (configLines before c?' after) text → run w' args' = run w args := by
  obtain ⟨s₀, hs₀, rfl⟩ := (Settings.readLines_collection c? hsection honly).1 hloads
  have hothers : ∀ c?', Settings.readLines {} [] 1 (configLines before c?' after) = (s₀.withCollection c?', none) :=
    fun c?' => (Settings.readLines_collection c?' hsection honly).2 ⟨s₀, hs₀, rfl⟩
  have hcollection := Query.collection_isSome_iff hparse
  constructor
  · rintro c w' args' rfl hc hnone hnames hrun'
    have hq : q.collection = none := by simpa [hnone] using hcollection
    have hparse' := Query.parse_withCollectionClause hparse hq hc
    rw [← hnames] at hparse'
    have hdefault : withDefault (s₀.withCollection (some c)) q =
        withDefault (s₀.withCollection none) { q with collection := some c } := by
      simp [withDefault, hq, Settings.withCollection]
    rw [hrun.run_eq hloads hparse, hrun'.run_eq (hothers none) hparse', hdefault]
    rfl
  · intro c?' w' args' hsome hnames hrun'
    obtain ⟨c, hq⟩ : ∃ c, q.collection = some c := by simpa [hsome, Option.isSome_iff_exists] using hcollection
    have hdefault : ∀ c?, withDefault (s₀.withCollection c?) q = q := by
      intro c?
      cases q
      simp_all [withDefault]
    rw [hrun.run_eq hloads hparse, hrun'.run_eq (hothers c?') (hnames ▸ hparse), hdefault, hdefault]
    rfl

/-- Both runs of either kind, and what they print. -/
theorem run_default_collection_books :
    (run { lookup := fun _ => .contents (ascii "[compile]\nprefixes = true\n") }
          [ascii "--verbose", ascii "--query", ascii "SEARCH IN 'books'  LIMIT 1"] =
        run { lookup := fun _ => .contents (ascii "[compile]\ndefault_collection = \"books\"\nprefixes = true\n") }
          [ascii "--query", ascii "SEARCH LIMIT 1", ascii "--verbose"] ∧
      run { lookup := fun _ => .contents (ascii "[compile]\ndefault_collection = \"books\"\nprefixes = true\n") }
          [ascii "--query", ascii "SEARCH LIMIT 1", ascii "--verbose"] =
        .finished 0 (ascii "cts:search(fn:collection('books'), (), ())[1 to 1]\n")
          (ascii "\x1b[2mcollection=books leaves=0 composites=0 sort_keys=0 skip=0 limit=1\x1b[0m\n")) ∧
    run { lookup := fun _ => .contents (ascii "[compile]\nprefixes = true\n") }
          [ascii "--query", ascii "SEARCH IN 'b'"] =
        run { lookup := fun _ => .contents (ascii "[compile]\ndefault_collection = \"books\"\nprefixes = true\n") }
          [ascii "--query", ascii "SEARCH IN 'b'"] ∧
      run { lookup := fun _ => .contents (ascii "[compile]\ndefault_collection = \"books\"\nprefixes = true\n") }
          [ascii "--query", ascii "SEARCH IN 'b'"] =
        .finished 0 (ascii "cts:search(fn:collection('b'), (), ())\n") [] := by
  have hwith : (ascii "[compile]\ndefault_collection = \"books\"\nprefixes = true\n").lines =
      configLines [ascii "[compile]"] (some (ascii "books")) [ascii "prefixes = true"] := by
    decide +kernel
  have hwithout : (ascii "[compile]\nprefixes = true\n").lines =
      configLines [ascii "[compile]"] none [ascii "prefixes = true"] := by
    decide +kernel
  have hsection : sectionAfter [] [ascii "[compile]"] = ascii "compile" := by decide +kernel
  have honly : ∀ a ∈ assignments [] 1 ([ascii "[compile]"] ++ [ascii "prefixes = true"]),
      a.key ≠ .defaultCollection := by
    decide +kernel
  have hloads : Settings.readLines {} [] 1
      (configLines [ascii "[compile]"] (some (ascii "books")) [ascii "prefixes = true"]) =
      ({ prefixes := some true, defaultCollection := some (ascii "books") }, none) := by
    decide +kernel
  have hruns : ∀ {config : Text} {lines : List Text} (gs others : List FlagGroup) (text : Text),
      config.lines = lines → (∀ g ∈ gs, g.IsSuitable) → otherGroups gs = others → givenValue .query gs = text →
      text ≠ [] → givenValue .queryFile gs = [] → givenValue .descriptor gs = [] →
      RunsOn { lookup := fun _ => .contents config } (gs.flatMap FlagGroup.arguments) others lines text :=
    fun gs others text hlines hsuitable hothers hquery hne hfile hdescriptor =>
      .intro ⟨rfl, hsuitable⟩ hothers (.argument hquery hne hfile hdescriptor) rfl hlines
  refine ⟨⟨?_, by decide +kernel⟩, ?_, by decide +kernel⟩
  · have hclause : ascii "SEARCH IN 'books'  LIMIT 1" =
        withCollectionClause (ascii "books") (ascii "SEARCH LIMIT 1") := by
      decide +kernel
    have hrun := hruns [.value .query (ascii "SEARCH LIMIT 1"), .switch .verbose] [.switch .verbose]
      (ascii "SEARCH LIMIT 1") hwith (by simp [FlagGroup.IsSuitable]) rfl rfl (by decide) rfl rfl
    have hrun' := hruns [.switch .verbose, .value .query (ascii "SEARCH IN 'books'  LIMIT 1")] [.switch .verbose]
      (withCollectionClause (ascii "books") (ascii "SEARCH LIMIT 1")) hwithout (by simp [FlagGroup.IsSuitable]) rfl
      hclause (by decide +kernel) rfl rfl
    have hparse : Query.parse (ascii "SEARCH LIMIT 1") = .ok { limit := some 1 } := by decide +kernel
    have hnone : namesCollection (ascii "SEARCH LIMIT 1") = false := by decide +kernel
    have hquote : '\''.toUInt8 ∉ ascii "books" := by decide
    exact (run_default_collection _ _ _ _ _ _ (ascii "SEARCH LIMIT 1") _ _ hrun hsection honly hloads hparse).1
      (ascii "books") _ _ rfl hquote hnone rfl hrun'
  · have hrun := hruns [.value .query (ascii "SEARCH IN 'b'")] [] (ascii "SEARCH IN 'b'") hwith
      (by simp [FlagGroup.IsSuitable]) rfl rfl (by decide) rfl rfl
    have hrun' := hruns [.value .query (ascii "SEARCH IN 'b'")] [] (ascii "SEARCH IN 'b'") hwithout
      (by simp [FlagGroup.IsSuitable]) rfl rfl (by decide) rfl rfl
    have hparse : Query.parse (ascii "SEARCH IN 'b'") = .ok { collection := some (ascii "b") } := by decide +kernel
    have hsome : namesCollection (ascii "SEARCH IN 'b'") = true := by decide +kernel
    exact (run_default_collection _ _ _ _ _ _ (ascii "SEARCH IN 'b'") _ _ hrun hsection honly hloads hparse).2 none
      _ _ hsome rfl hrun'

end Command

end DocSearch
