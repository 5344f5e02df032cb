import DocSearch.Command
import DocSearch.Proofs.Options.Reading
import DocSearch.Proofs.Query.WellFormed

/-!
# The stages of a run

What the arguments of a run come to, what its stages need to succeed and in which ways they fail.  A query that has been
parsed is well-formed, also with another collection (`wellFormed_withDefault`), so that the last stage does not fail.
-/

namespace DocSearch

/-! ### Sources -/

namespace Options

variable {o : Options}

/-- Without a descriptor, one source is given if either the query or its file is. -/
theorem sources_eq_one (hd : o.descriptor = []) :
    o.sources = 1 ↔ (o.query ≠ [] ∧ o.queryFile = []) ∨ (o.query = [] ∧ o.queryFile ≠ []) := by
  by_cases hq : o.query = [] <;> by_cases hf : o.queryFile = [] <;> simp [sources, hq, hf, hd]

/-- If the file of the query is the only source, nothing else is given. -/
theorem others_of_queryFile (hs : o.sources = 1) (hf : o.queryFile ≠ []) : o.descriptor = [] ∧ o.query = [] := by
  by_cases hd : o.descriptor = []
  · rcases (sources_eq_one hd).1 hs with ⟨-, hnone⟩ | ⟨hq, -⟩
    · exact absurd hnone hf
    · exact ⟨hd, hq⟩
  · by_cases hq : o.query = [] <;> simp [sources, hq, hf, hd] at hs

end Options

namespace Command

variable {w : World} {o : Options}

/-! ### Texts for the terminal -/

theorem errorLine_eq (color : Bool) (message : Text) :
    errorLine color message =
      if color then ascii "\x1b[31mError: " ++ message ++ ascii "\x1b[0m\n"
      else ascii "Error: " ++ message ++ ascii "\n" := by
  have hred : red ++ ascii "Error: " = ascii "\x1b[31mError: " := by decide
  have hreset : reset ++ newline = ascii "\x1b[0m\n" := by decide
  cases color with
  | true => simp [errorLine, colored, ← hred, ← hreset]
  | false => simp [errorLine, colored, newline]

theorem errorLine_inj {color : Bool} {m m' : Text} : errorLine color m = errorLine color m' ↔ m = m' := by
  cases color <;> simp [errorLine, colored]

theorem summaryLine_eq (color : Bool) (q : Query) :
    summaryLine color q =
      if color then ascii "\x1b[2m" ++ q.summary ++ ascii "\x1b[0m\n" else q.summary ++ ascii "\n" := by
  have hdim : dim = ascii "\x1b[2m" := by decide
  have hreset : reset ++ newline = ascii "\x1b[0m\n" := by decide
  cases color with
  | true => simp [summaryLine, colored, hdim, ← hreset]
  | false => simp [summaryLine, colored, newline]

/-! ### The arguments -/

/-- A run without a report on its arguments: they fall into groups, which say how the run goes on. -/
theorem run_eq_of_groups {gs : List FlagGroup} {args : List Text} (h : AreGroups gs args) :
    run w args =
      if .switch .help ∈ gs then .finished 0 help []
      else if (Options.ofGroups gs).sources = 0 then .finished 1 [] startupHelp
      else if 1 < (Options.ofGroups gs).sources then fail (Options.ofGroups gs) .severalSources
      else runSource w (Options.ofGroups gs) := by
  have hread : ({} : Options).read args = (Options.ofGroups gs, none) := Options.read_groups h {}
  simp [run, hread]

/-! ### The query -/

theorem read_file_eq_ok {path text : Text} : w.read (.file path) = .ok text ↔ w.lookup path = .contents text := by
  simp only [World.read]
  cases w.lookup path <;> simp

theorem query_eq_ok {q : Query} :
    query w o = .ok q ↔ ∃ text, queryText w o = .ok text ∧ Query.parse text w.names = .ok q := by
  simp only [query, bind_eq_ok, mapError_eq_ok]

theorem query_eq_error {f : Failure} :
    query w o = .error f ↔
      (∃ e, queryText w o = .error e ∧ .file e = f) ∨
        ∃ text e, queryText w o = .ok text ∧ Query.parse text w.names = .error e ∧ .parse e = f := by
  simp only [query, bind_eq_error, mapError_eq_ok, mapError_eq_error]
  constructor
  · rintro (h | ⟨text, ht, e, he, hf⟩)
    · exact Or.inl h
    · exact Or.inr ⟨text, e, ht, he, hf⟩
  · rintro (h | ⟨text, e, ht, he, hf⟩)
    · exact Or.inl h
    · exact Or.inr ⟨text, ht, e, he, hf⟩

/-- The query that is compiled is well-formed, with the configured collection as with its own. -/
theorem wellFormed_withDefault {q : Query} (h : query w o = .ok q) (s : Settings) :
    (withDefault s q).WellFormed w.names := by
  obtain ⟨text, -, hparse⟩ := query_eq_ok.1 h
  obtain ⟨hcriteria, hsort, hskip, hlimit⟩ := Query.wellFormed_of_parse hparse
  exact ⟨hcriteria, hsort, hskip, hlimit⟩

end Command

end DocSearch
