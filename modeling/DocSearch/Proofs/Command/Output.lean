import DocSearch.Proofs.Command.Configuration

/-!
# What a run prints

A run that succeeds prints the help or a compiled query and a line feed, and on the error stream the summary of
that query if it is asked for.  A run that fails prints the startup help or one report, unless nothing can be found
out about the path of its configuration file: then it ends with an exception and prints nothing
(`Command.run_prints`).  The ways to end are listed once (`Command.EndsWith`), and a run ends in one of them as listed
(`Command.endsWith_iff`).  What is compiled is the query that the text denotes, in the configured collection if the text
names none; a text names one in its second token or nowhere (`Query.collection_isSome_iff`).
-/

namespace DocSearch

/-! ### Texts that name a collection -/

/-- The text has a clause for the collection: its second token is `IN`. -/
def namesCollection (s : Text) : Bool := (tokens s)[1]?.any fun t => t.kind == .keyword .in_

/-- A list of tokens that does not start with `IN`. -/
private def StartsOtherwise (ts : List Token) : Prop := ∀ t ∈ ts.head?, t.kind ≠ .keyword .in_

private theorem StartsOtherwise.append {a b : List Token} (ha : StartsOtherwise a) (hb : StartsOtherwise b) :
    StartsOtherwise (a ++ b) := by
  cases a with
  | nil => exact hb
  | cons t a => exact ha

private theorem startsOtherwise_cons {t : Token} {ts : List Token} (h : t.kind ≠ .keyword .in_) :
    StartsOtherwise (t :: ts) := by
  simpa [StartsOtherwise] using h

namespace Query

variable {rule : NameRule}

/-- Only the clause for the collection starts with `IN`. -/
private theorem startsOtherwise_rest {criteria : Option Criteria} {sort : Option (List SortKey)}
    {skip limit : Option UInt64} {b c d e f : List Token} (hb : Derives rule (.criteriaClause criteria) b)
    (hc : Derives rule (.orderClause sort) c) (hd : Derives rule (.pageClause skip limit) d)
    (he : Derives rule .ending e) (hf : StartsOtherwise f) : StartsOtherwise (b ++ c ++ d ++ e ++ f) := by
  have hnil : StartsOtherwise [] := by simp [StartsOtherwise]
  have hb' : StartsOtherwise b := by
    cases hb with
    | noCriteria => exact hnil
    | criteria ht ha => exact startsOtherwise_cons (by simp [ht])
  have hc' : StartsOtherwise c := by
    cases hc with
    | noOrder => exact hnil
    | order ht hu ha => exact startsOtherwise_cons (by simp [ht])
  have hd' : StartsOtherwise d := by
    cases hd with
    | noPage => exact hnil
    | limit ht hu hn => exact startsOtherwise_cons (by simp [ht])
    | offset ht hu hn hv hw hm => exact startsOtherwise_cons (by simp [ht])
  have he' : StartsOtherwise e := by
    cases he with
    | noSemicolon => exact hnil
    | semicolon ht => exact startsOtherwise_cons (by simp [ht])
  exact (((hb'.append hc').append hd').append he').append hf

/-- A query has a collection if its text names one. -/
theorem collection_isSome_iff {s : Text} {q : Query} (h : Query.parse s rule = .ok q) :
    q.collection.isSome = namesCollection s := by
  obtain ⟨body, last, hts, hlast, hbody⟩ := parse_eq_ok_iff_isSentence.1 h
  cases hbody with
  | @query _ _ _ _ _ t a b c d e ht ha hb hc hd he =>
    cases ha with
    | collection hin hu => simp [namesCollection, hts, hin]
    | noCollection =>
      have hrest := startsOtherwise_rest hb hc hd he (f := [last]) (startsOtherwise_cons (by simp [hlast]))
      cases hr : b ++ c ++ d ++ e ++ [last] with
      | nil => simp at hr
      | cons u us =>
        have hu : u.kind ≠ .keyword .in_ := hrest u (by rw [hr]; rfl)
        have htokens : tokens s = t :: u :: us := by
          rw [hts, ← hr]
          simp
        simp [namesCollection, htokens, hu]

end Query

namespace Command

variable {w : World} {o : Options} {args : List Text} {gs : List FlagGroup} {s : Settings} {q : Query}

theorem withDefault_of_parse {text : Text} {rule : NameRule} (h : Query.parse text rule = .ok q) :
    withDefault s q =
      { q with collection := if namesCollection text then q.collection else s.defaultCollection } := by
  have hcollection := Query.collection_isSome_iff h
  unfold withDefault
  cases hq : q.collection with
  | some c => simp [← hcollection, hq]
  | none => simp [← hcollection, hq]

/-! ### What is expected of a run -/

/-- The arguments are in order and do not ask for the help. -/
structure Proceeds (gs : List FlagGroup) (args : List Text) : Prop where
  groups : AreGroups gs args
  help : .switch .help ∉ gs

/-- The text of the query that the groups of the arguments give, as the only source. -/
inductive IsQueryText (w : World) (gs : List FlagGroup) : Text → Prop
  | argument {text : Text} (ht : givenValue .query gs = text) (hne : text ≠ []) (hf : givenValue .queryFile gs = [])
      (hd : givenValue .descriptor gs = []) : IsQueryText w gs text
  | file {path text : Text} (hp : givenValue .queryFile gs = path) (hne : path ≠ [])
      (hc : w.lookup path = .contents text) (hq : givenValue .query gs = [])
      (hd : givenValue .descriptor gs = []) : IsQueryText w gs text

/-- A report on the error stream, in red unless colors are disabled. -/
def reportBytes (gs : List FlagGroup) (message : Text) : Text :=
  if .switch .noColor ∈ gs then ascii "Error: " ++ message ++ ascii "\n"
  else ascii "\x1b[31mError: " ++ message ++ ascii "\x1b[0m\n"

/-- What is on the error stream beside a compiled query: its summary if it is asked for, dimmed unless colors are
disabled. -/
def summaryBytes (gs : List FlagGroup) (q : Query) : Text :=
  if .switch .verbose ∉ gs then []
  else if .switch .noColor ∈ gs then q.summary ++ ascii "\n"
  else ascii "\x1b[2m" ++ q.summary ++ ascii "\x1b[0m\n"

/-- The query of a run, its text in cts form and the output mode.  A flag in the arguments comes before the settings
of the configuration, and its last value before the others. -/
inductive Compiles (w : World) (gs : List FlagGroup) : OutputMode → Query → Text → Prop
  | intro {mode : OutputMode} {text compiled : Text} {q q' : Query} {s : Settings} (ht : IsQueryText w gs text)
      (hs : Configured w gs s) (hq : Query.parse text w.names = .ok q)
      (hq' : q' = { q with collection := if namesCollection text then q.collection else s.defaultCollection })
      (hc : q'.compile ((((lastValue? .prefixes gs).map fun v => v == ascii "on").or s.prefixes).getD false) =
        .ok compiled)
      (hm : (((lastValue? .mode gs).bind OutputMode.ofName?).or s.mode).getD .plain = mode) :
      Compiles w gs mode q' compiled

/-- What a run reports when it fails.  From the reading of the query on, reports end in front of a zero byte. -/
inductive FailsWith (w : World) (args : List Text) (gs : List FlagGroup) : Text → Prop
  | argument {e : ArgumentError} (h : StartsWithGroups gs args (some e)) : FailsWith w args gs e.message
  | severalSources (h : Proceeds gs args) (hs : 1 < (Options.ofGroups gs).sources) :
      FailsWith w args gs (ascii "Use only one of --query, --query-file or --descriptor")
  | configuration {message : Text} (h : Proceeds gs args) (hs : (Options.ofGroups gs).sources = 1)
      (hm : Misconfigured w gs message) : FailsWith w args gs message
  | file {flag : ValueFlag} {path : Text} {s : Settings} (h : Proceeds gs args)
      (hs : (Options.ofGroups gs).sources = 1) (hc : Configured w gs s)
      (hflag : flag = .queryFile ∨ flag = .descriptor ∧ path ≠ ascii "-") (hp : givenValue flag gs = path)
      (hne : path ≠ []) (hf : ∀ text, w.lookup path ≠ .contents text) :
      FailsWith w args gs (ascii "Failed to open file: " ++ path).beforeZero
  | text {text : Text} {e : ParseError} {s : Settings} (h : Proceeds gs args) (hc : Configured w gs s)
      (ht : IsQueryText w gs text) (he : Query.parse text w.names = .error e) :
      FailsWith w args gs (e.fault.message ++ ascii " at position " ++ Decimal.ofNat e.position).beforeZero

/-- How a run ends. -/
inductive EndsWith (w : World) (args : List Text) : Outcome → Prop
  | help {gs : List FlagGroup} (h : AreGroups gs args) (hhelp : .switch .help ∈ gs) :
      EndsWith w args (.finished 0 help [])
  | query {gs : List FlagGroup} {q : Query} {compiled : Text} (h : Proceeds gs args)
      (hc : Compiles w gs .plain q compiled) :
      EndsWith w args (.finished 0 (compiled ++ ascii "\n") (summaryBytes gs q))
  | json {gs : List FlagGroup} {q : Query} {compiled : Text} (h : Proceeds gs args)
      (hc : Compiles w gs .json q compiled) : EndsWith w args (.json compiled (summaryBytes gs q))
  | descriptor {gs : List FlagGroup} {s : Settings} {text : Text} (h : Proceeds gs args)
      (hs : (Options.ofGroups gs).sources = 1) (hc : Configured w gs s) (hd : givenValue .descriptor gs ≠ [])
      (hr : w.read (.ofArgument (givenValue .descriptor gs)) = .ok text) : EndsWith w args (.descriptor text)
  | noSource {gs : List FlagGroup} (h : Proceeds gs args) (hs : (Options.ofGroups gs).sources = 0) :
      EndsWith w args (.finished 1 [] startupHelp)
  | report {gs : List FlagGroup} {message : Text} (h : FailsWith w args gs message) :
      EndsWith w args (.finished 1 [] (reportBytes gs message))
  | uncaught {gs : List FlagGroup} {e : AccessError} (h : Proceeds gs args)
      (hs : (Options.ofGroups gs).sources = 1) (he : IsCutOff w gs e) : EndsWith w args (.uncaught e)

/-! ### Texts for the terminal -/

theorem errorLine_ofGroups (gs : List FlagGroup) (message : Text) :
    errorLine (Options.ofGroups gs).color message = reportBytes gs message := by
  rw [errorLine_eq]
  by_cases hcolor : .switch .noColor ∈ gs <;> simp [reportBytes, hcolor]

theorem fail_ofGroups (gs : List FlagGroup) {f : Failure} (hf : ∀ e, f ≠ .uncaught e) :
    fail (Options.ofGroups gs) f = .finished 1 [] (reportBytes gs f.message) := by
  rw [← errorLine_ofGroups]
  cases f with
  | uncaught e => exact absurd rfl (hf e)
  | _ => rfl

theorem reportBytes_inj {gs : List FlagGroup} {m m' : Text} : reportBytes gs m = reportBytes gs m' ↔ m = m' := by
  rw [← errorLine_ofGroups, ← errorLine_ofGroups, errorLine_inj]

theorem diagnostics_ofGroups (gs : List FlagGroup) (q : Query) :
    diagnostics (Options.ofGroups gs) q = summaryBytes gs q := by
  unfold diagnostics summaryBytes
  rw [summaryLine_eq]
  by_cases hverbose : .switch .verbose ∈ gs
  · by_cases hcolor : .switch .noColor ∈ gs <;> simp [hverbose, hcolor]
  · simp [hverbose]

/-! ### The query -/

theorem isQueryText_iff {text : Text} :
    IsQueryText w gs text ↔
      givenValue .descriptor gs = [] ∧ (Options.ofGroups gs).sources = 1 ∧
        queryText w (Options.ofGroups gs) = .ok text := by
  constructor
  · intro h
    cases h with
    | argument ht hne hf hd =>
      subst ht
      refine ⟨hd, (Options.sources_eq_one hd).2 (Or.inl ⟨hne, hf⟩), ?_⟩
      simp [queryText, hne]
    | file hp hne hc hq hd =>
      subst hp
      refine ⟨hd, (Options.sources_eq_one hd).2 (Or.inr ⟨hq, hne⟩), ?_⟩
      simpa [queryText, hq, read_file_eq_ok] using hc
  · rintro ⟨hd, hs, ht⟩
    rcases (Options.sources_eq_one hd).1 hs with ⟨hq, hf⟩ | ⟨hq, hf⟩
    · simp only [queryText, List.isEmpty_iff, hq, if_false, Except.ok.injEq] at ht
      exact .argument ht (ht ▸ hq) hf hd
    · simp only [queryText, List.isEmpty_iff, hq, if_true, read_file_eq_ok] at ht
      exact .file rfl hf ht hq hd

/-- A query that is compiled is what a run with one source ends with. -/
theorem Compiles.runSource_eq {mode : OutputMode} {compiled : Text} (h : Compiles w gs mode q compiled) :
    (Options.ofGroups gs).sources = 1 ∧
      runSource w (Options.ofGroups gs) =
        match mode with
        | .plain => .finished 0 (compiled ++ ascii "\n") (summaryBytes gs q)
        | .json => .json compiled (summaryBytes gs q) := by
  cases h with
  | @intro text _ q₀ _ s ht hs hparse hq hc hm =>
    obtain ⟨hd, hone, ht⟩ := isQueryText_iff.1 ht
    rw [← withDefault_of_parse hparse] at hq
    subst hq
    have hquery : query w (Options.ofGroups gs) = .ok q₀ := query_eq_ok.2 ⟨text, ht, hparse⟩
    have hprefixes : prefixes (Options.ofGroups gs) s =
        (((lastValue? .prefixes gs).map fun v => v == ascii "on").or s.prefixes).getD false := by
      simp [prefixes]
    have hmode : Command.mode (Options.ofGroups gs) s = mode := by
      simpa [Command.mode] using hm
    rw [← hprefixes] at hc
    refine ⟨hone, ?_⟩
    simp only [runSource, hs.settings_eq, Options.descriptor_ofGroups, hd, List.isEmpty_nil, if_true, hquery, finish,
      hc, hmode, diagnostics_ofGroups]
    cases mode <;> rfl

/-- A query that is parsed is compiled. -/
theorem exists_compiles {text : Text} (ht : IsQueryText w gs text) (hs : Configured w gs s)
    (hparse : Query.parse text w.names = .ok q) : ∃ mode q' compiled, Compiles w gs mode q' compiled := by
  have hquery : query w (Options.ofGroups gs) = .ok q := query_eq_ok.2 ⟨text, (isQueryText_iff.1 ht).2.2, hparse⟩
  obtain ⟨compiled, hc⟩ := (wellFormed_withDefault hquery s).compile_ok
    ((((lastValue? .prefixes gs).map fun v => v == ascii "on").or s.prefixes).getD false)
  exact ⟨_, _, compiled, .intro ht hs hparse (withDefault_of_parse hparse) hc rfl⟩

/-! ### Failure -/

theorem read_file_eq_error {path : Text} (h : ∀ text, w.lookup path ≠ .contents text) :
    w.read (.file path) = .error (.unreadable path) := by
  simp only [World.read]
  cases hfound : w.lookup path with
  | contents text => exact absurd hfound (h text)
  | missing | inaccessible | unopenable => rfl

theorem Proceeds.run_eq (h : Proceeds gs args) (hs : (Options.ofGroups gs).sources = 1) :
    run w args = runSource w (Options.ofGroups gs) := by
  rw [run_eq_of_groups h.groups, if_neg h.help, hs, if_neg (by omega), if_neg (by omega)]

/-- A failure is reported. -/
theorem FailsWith.run_eq {message : Text} (h : FailsWith w args gs message) :
    run w args = .finished 1 [] (reportBytes gs message) := by
  cases h with
  | @argument e h =>
    rw [run, h.read_eq]
    exact fail_ofGroups gs (f := .argument e) (by simp)
  | severalSources h hs =>
    rw [run_eq_of_groups h.groups, if_neg h.help, if_neg (by omega), if_pos hs]
    exact fail_ofGroups gs (f := .severalSources) (by simp)
  | configuration h hs hm =>
    rw [h.run_eq hs, runSource, hm.settings_eq]
    exact fail_ofGroups gs (f := .settings message) (by simp)
  | @file flag path s h hs hc hflag hp hne hf =>
    have hread := read_file_eq_error hf
    have hfail := fail_ofGroups gs (f := .file (.unreadable path)) (by simp)
    have hrun : runSource w (Options.ofGroups gs) = fail (Options.ofGroups gs) (.file (.unreadable path)) := by
      rcases hflag with rfl | ⟨rfl, hhyphen⟩
      · obtain ⟨hd, hq⟩ : givenValue .descriptor gs = [] ∧ givenValue .query gs = [] :=
          Options.others_of_queryFile hs fun hnone => hne (hp.symm.trans hnone)
        have hquery : query w (Options.ofGroups gs) = .error (.file (.unreadable path)) :=
          query_eq_error.2 (Or.inl ⟨_, by simpa [queryText, hq, hp] using hread, rfl⟩)
        simp [runSource, hc.settings_eq, hd, hquery]
      · simp [runSource, hc.settings_eq, hp, hne, openDescriptor, Source.ofArgument, hhyphen, hread]
    rw [h.run_eq hs, hrun]
    exact hfail
  | @text text e s h hc ht he =>
    obtain ⟨hd, hone, htext⟩ := isQueryText_iff.1 ht
    have hquery : query w (Options.ofGroups gs) = .error (.parse e) :=
      query_eq_error.2 (Or.inr ⟨text, e, htext, he, rfl⟩)
    rw [h.run_eq hone, runSource, hc.settings_eq]
    simp only [Options.descriptor_ofGroups, hd, List.isEmpty_nil, if_true, hquery]
    exact fail_ofGroups gs (f := .parse e) (by simp)

/-! ### All ends -/

variable {r : Outcome}

/-- Each end is what the run computes. -/
theorem EndsWith.run_eq (h : EndsWith w args r) : run w args = r := by
  cases h with
  | help h hhelp => rw [run_eq_of_groups h, if_pos hhelp]
  | query h hc =>
    obtain ⟨hone, hrun⟩ := hc.runSource_eq
    rw [h.run_eq hone, hrun]
  | json h hc =>
    obtain ⟨hone, hrun⟩ := hc.runSource_eq
    rw [h.run_eq hone, hrun]
  | descriptor h hs hc hd hr =>
    rw [h.run_eq hs]
    simp [runSource, hc.settings_eq, hd, openDescriptor, hr]
  | noSource h hs => rw [run_eq_of_groups h.groups, if_neg h.help, if_pos hs]
  | report h => exact h.run_eq
  | uncaught h hs he =>
    rw [h.run_eq hs, runSource, he.settings_eq]
    rfl

/-- A run with one source and its settings ends with the query or the descriptor, or with a report. -/
theorem exists_endsWith_of_configured (h : Proceeds gs args) (hs : (Options.ofGroups gs).sources = 1)
    (hc : Configured w gs s) : ∃ r, EndsWith w args r := by
  by_cases hd : givenValue .descriptor gs = []
  · cases ht : queryText w (Options.ofGroups gs) with
    | ok text =>
      have htext := isQueryText_iff.2 ⟨hd, hs, ht⟩
      cases hparse : Query.parse text w.names with
      | ok q =>
        obtain ⟨mode, q', compiled, hcompiles⟩ := exists_compiles htext hc hparse
        cases mode with
        | plain => exact ⟨_, .query h hcompiles⟩
        | json => exact ⟨_, .json h hcompiles⟩
      | error e => exact ⟨_, .report (.text h hc htext hparse)⟩
    | error e =>
      have hquery : givenValue .query gs = [] := by
        by_contra hq
        simp [queryText, hq] at ht
      have hfile : givenValue .queryFile gs ≠ [] := by
        rcases (Options.sources_eq_one hd).1 hs with ⟨hq, -⟩ | ⟨-, hf⟩
        · exact absurd hquery hq
        · exact hf
      have hnone : ∀ text, w.lookup (givenValue .queryFile gs) ≠ .contents text := by
        intro text hcontents
        simp [queryText, hquery, read_file_eq_ok.2 hcontents] at ht
      exact ⟨_, .report (.file h hs hc (Or.inl rfl) rfl hfile hnone)⟩
  · cases hr : w.read (.ofArgument (givenValue .descriptor gs)) with
    | ok text => exact ⟨_, .descriptor h hs hc hd hr⟩
    | error e =>
      have hhyphen : givenValue .descriptor gs ≠ ascii "-" := by
        intro hhyphen
        simp [Source.ofArgument, hhyphen, World.read] at hr
      have hnone : ∀ text, w.lookup (givenValue .descriptor gs) ≠ .contents text := by
        intro text hcontents
        simp [Source.ofArgument, hhyphen, read_file_eq_ok.2 hcontents] at hr
      exact ⟨_, .report (.file h hs hc (Or.inr ⟨rfl, hhyphen⟩) rfl hd hnone)⟩

theorem exists_endsWith (w : World) (args : List Text) : ∃ r, EndsWith w args r := by
  obtain ⟨gs, hgs⟩ := Options.exists_startsWithGroups {} args
  cases hread : (({} : Options).read args).2 with
  | some e =>
    rw [hread] at hgs
    exact ⟨_, .report (.argument hgs)⟩
  | none =>
    rw [hread] at hgs
    obtain ⟨hgs⟩ := hgs
    by_cases hhelp : .switch .help ∈ gs
    · exact ⟨_, .help hgs hhelp⟩
    have h : Proceeds gs args := ⟨hgs, hhelp⟩
    rcases Nat.lt_trichotomy (Options.ofGroups gs).sources 1 with hs | hs | hs
    · exact ⟨_, .noSource h (by omega)⟩
    · rcases configuration_cases w gs with ⟨s, hc⟩ | ⟨message, hm⟩ | ⟨e, he⟩
      · exact exists_endsWith_of_configured h hs hc
      · exact ⟨_, .report (.configuration h hs hm)⟩
      · exact ⟨_, .uncaught h hs he⟩
    · exact ⟨_, .report (.severalSources h hs)⟩

theorem endsWith_iff : EndsWith w args r ↔ run w args = r := by
  refine ⟨EndsWith.run_eq, ?_⟩
  rintro rfl
  obtain ⟨r, hr⟩ := exists_endsWith w args
  rwa [hr.run_eq]

/-- A run ends unreported if it is cut off from its configuration. -/
theorem run_uncaught_iff {e : AccessError} :
    run w args = .uncaught e ↔ ∃ gs, Proceeds gs args ∧ (Options.ofGroups gs).sources = 1 ∧ IsCutOff w gs e := by
  rw [← endsWith_iff]
  constructor
  · intro h
    cases h with
    | uncaught h hs he => exact ⟨_, h, hs, he⟩
  · rintro ⟨gs, h, hs, he⟩
    exact .uncaught h hs he

/-- A run fails without a source, or with a report. -/
theorem run_fails_iff {code : Nat} {out err : Text} (hcode : code ≠ 0) :
    run w args = .finished code out err ↔ code = 1 ∧ out = [] ∧
      ∃ gs, (err = startupHelp ∧ Proceeds gs args ∧ (Options.ofGroups gs).sources = 0) ∨
        ∃ message, FailsWith w args gs message ∧ err = reportBytes gs message := by
  rw [← endsWith_iff]
  constructor
  · intro h
    cases h with
    | help | query => exact absurd rfl hcode
    | noSource h hs => exact ⟨rfl, rfl, _, Or.inl ⟨rfl, h, hs⟩⟩
    | report h => exact ⟨rfl, rfl, _, Or.inr ⟨_, h, rfl⟩⟩
  · rintro ⟨rfl, rfl, gs, ⟨rfl, h, hs⟩ | ⟨message, h, rfl⟩⟩
    · exact .noSource h hs
    · exact .report h

/-- A run succeeds with the help or with a query. -/
theorem run_succeeds_iff {out err : Text} :
    run w args = .finished 0 out err ↔ ∃ gs, AreGroups gs args ∧
      ((.switch .help ∈ gs ∧ out = help ∧ err = []) ∨
        (.switch .help ∉ gs ∧ ∃ q compiled, Compiles w gs .plain q compiled ∧ out = compiled ++ ascii "\n" ∧
          err = summaryBytes gs q)) := by
  rw [← endsWith_iff]
  constructor
  · intro h
    cases h with
    | help h hhelp => exact ⟨_, h, Or.inl ⟨hhelp, rfl, rfl⟩⟩
    | query h hc => exact ⟨_, h.groups, Or.inr ⟨h.help, _, _, hc, rfl, rfl⟩⟩
  · rintro ⟨gs, hgs, ⟨hhelp, rfl, rfl⟩ | ⟨hhelp, q, compiled, hc, rfl, rfl⟩⟩
    · exact .help hgs hhelp
    · exact .query ⟨hgs, hhelp⟩ hc

/-- How a run succeeds whose groups are known. -/
theorem run_groups_succeeds {out err : Text} (hgs : AreGroups gs args) :
    run w args = .finished 0 out err ↔
      (.switch .help ∈ gs ∧ out = help ∧ err = []) ∨
        (.switch .help ∉ gs ∧ ∃ q compiled, Compiles w gs .plain q compiled ∧ out = compiled ++ ascii "\n" ∧
          err = summaryBytes gs q) := by
  rw [run_succeeds_iff]
  constructor
  · rintro ⟨gs', hgs', h⟩
    cases hgs'.unique hgs
    exact h
  · exact fun h => ⟨gs, hgs, h⟩

/-- A run prints the help if its arguments ask for it, whatever the world, and otherwise the query that they give.  A
run that fails prints the startup help for want of a source, or one report, on the error stream alone.  A run ends
without either exactly if nothing can be found out about the path of its configuration file. -/
theorem run_prints (w : World) (args : List Text) :
    (∀ e, run w args = .uncaught e ↔
      ∃ gs, Proceeds gs args ∧ (Options.ofGroups gs).sources = 1 ∧ IsCutOff w gs e) ∧
    (∀ code out err, code ≠ 0 → (run w args = .finished code out err ↔ code = 1 ∧ out = [] ∧
      ∃ gs, (err = startupHelp ∧ Proceeds gs args ∧ (Options.ofGroups gs).sources = 0) ∨
        ∃ message, FailsWith w args gs message ∧ err = reportBytes gs message)) ∧
    ∀ out err, run w args = .finished 0 out err ↔ ∃ gs, AreGroups gs args ∧
      ((.switch .help ∈ gs ∧ out = help ∧ err = []) ∨
        (.switch .help ∉ gs ∧ ∃ q compiled, Compiles w gs .plain q compiled ∧ out = compiled ++ ascii "\n" ∧
          err = summaryBytes gs q)) :=
  ⟨fun _ => run_uncaught_iff, fun _ _ _ hcode => run_fails_iff hcode, fun _ _ => run_succeeds_iff⟩

/-- A configured collection in a summary without color, a report in color, and what a run without arguments and the help
start with. -/
theorem run_prints_configured :
    (∃ gs q compiled,
      AreGroups gs [ascii "--query-file", ascii "q", ascii "--verbose", ascii "--config", ascii "c",
        ascii "--color=disabled"] ∧
      Compiles
        { lookup := fun path =>
            .contents (if path = ascii "c" then ascii "compile.default_collection = books" else
              ascii "SEARCH WHERE a = 1") }
        gs .plain q compiled ∧
      ascii "search(collection('books'), element-value-query(QName('', 'a'), '1'), ())\n" = compiled ++ ascii "\n" ∧
      ascii "collection=books leaves=1 composites=0 sort_keys=0 pagination=none\n" = summaryBytes gs q) ∧
      (∃ gs message, FailsWith {} [ascii "--verbose", ascii "--query", ascii "SEARCH LIMIT 0"] gs message ∧
        ascii "\x1b[31mError: LIMIT must be greater than zero at position 13\x1b[0m\n" = reportBytes gs message) ∧
      (∃ rest, run {} [] = .finished 1 []
        (ascii "ctsq - compile search descriptors into cts:search expressions\n\nUsage:\n" ++ rest)) ∧
      ∃ rest, run {} [ascii "--help"] = .finished 0 (ascii "Usage: ctsq --query <text>\n" ++ rest) [] := by
  refine ⟨?_, ?_, ?_, ?_⟩
  · have hsuccess := (run_prints
      { lookup := fun path =>
          .contents (if path = ascii "c" then ascii "compile.default_collection = books" else
            ascii "SEARCH WHERE a = 1") }
      [ascii "--query-file", ascii "q", ascii "--verbose", ascii "--config", ascii "c",
        ascii "--color=disabled"]).2.2
      (ascii "search(collection('books'), element-value-query(QName('', 'a'), '1'), ())\n")
      (ascii "collection=books leaves=1 composites=0 sort_keys=0 pagination=none\n")
    obtain ⟨gs, hgs, ⟨-, hout, -⟩ | ⟨-, q, compiled, hcompiles, hout, herr⟩⟩ := hsuccess.1 (by decide +kernel)
    · exact absurd hout (by decide +kernel)
    · exact ⟨gs, q, compiled, hgs, hcompiles, hout, herr⟩
  · have hfailure := (run_prints {} [ascii "--verbose", ascii "--query", ascii "SEARCH LIMIT 0"]).2.1 1 []
      (ascii "\x1b[31mError: LIMIT must be greater than zero at position 13\x1b[0m\n") (by decide)
    obtain ⟨-, -, gs, ⟨herr, -⟩ | ⟨message, hmessage, herr⟩⟩ := hfailure.1 (by decide +kernel)
    · exact absurd herr (by decide +kernel)
    · exact ⟨gs, message, hmessage, herr⟩
  · have hnone : Proceeds [] [] := ⟨⟨rfl, by simp⟩, by simp⟩
    obtain ⟨rest, hrest⟩ :
        ascii "ctsq - compile search descriptors into cts:search expressions\n\nUsage:\n" <+: startupHelp := by
      decide +kernel
    exact ⟨rest, ((run_prints {} []).2.1 1 [] _ (by decide)).2 ⟨rfl, rfl, [], Or.inl ⟨hrest, hnone, rfl⟩⟩⟩
  · have hhelp : AreGroups [.switch .help] [ascii "--help"] := ⟨rfl, by simp [FlagGroup.IsSuitable]⟩
    obtain ⟨rest, hrest⟩ : ascii "Usage: ctsq --query <text>\n" <+: help := by decide +kernel
    exact ⟨rest, ((run_prints {} [ascii "--help"]).2.2 _ _).2 ⟨_, hhelp, Or.inl ⟨by simp, hrest, rfl⟩⟩⟩

/-- A path with a name of 300 bytes for the configuration file: the run reports nothing. -/
theorem run_ends_unreported :
    (FileTree.mk []).lookup (List.replicate 300 'a'.toUInt8) = .inaccessible (ascii "File name too long") ∧
      run { lookup := (FileTree.mk []).lookup }
          [ascii "--query", ascii "SEARCH", ascii "--config", List.replicate 300 'a'.toUInt8] =
        .uncaught ⟨List.replicate 300 'a'.toUInt8, ascii "File name too long"⟩ := by
  decide +kernel

end Command

end DocSearch
